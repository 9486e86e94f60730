import RelQuery.Config.Basic
import RelQuery.Json.Parser

/-!
# Settings in a tree of values

A configuration is read from a tree.  A section is an object with a member for each setting, or an
array of the settings in order, of which those at the end may be left out.  What is not there has
its default, and unknown keys and further items are passed over.  Nothing is converted: a value of
the wrong kind is an error, which is reported by the path of keys to it.

In a JSON text what stands under an unknown key is read for its shape only, and there may be no
further items.
-/

namespace RelQuery

/-- The keys from the root of a tree to a value. -/
abbrev SettingPath : Type :=
  List String

namespace Json

def asText : Json → Except SettingPath String
  | string text => .ok text
  | _ => .error []

def asFlag : Json → Except SettingPath Bool
  | bool flag => .ok flag
  | _ => .error []

def asCount : Json → Except SettingPath Nat
  | int n => if Text.fitsUnsigned 64 n then .ok n.toNat else .error []
  | _ => .error []

def asOptionalText : Json → Except SettingPath (Option String)
  | null => .ok none
  | value => value.asText.map some

def underKey {α : Type} (key : String) (result : Except SettingPath α) : Except SettingPath α :=
  result.mapError (key :: ·)

def asTexts : Json → Except SettingPath (List String)
  | array items => items.zipIdx.mapM fun entry => underKey (toString entry.2) entry.1.asText
  | _ => .error []

/-- Reads the settings of a section, given the names of the settings in order, what a setting does
and what holds without any.  No setting may be given twice. -/
def readSection {α : Type} (names : List String) (set : α → String → Json → Except SettingPath α)
    (default : α) : Json → Except SettingPath α
  | object members =>
    if names.any fun name => 1 < (valuesOf name members).length then .error []
    else members.foldlM (fun found entry => underKey entry.1 (set found entry.1 entry.2)) default
  | array items =>
    (names.zip items).zipIdx.foldlM
      (fun found entry => underKey (toString entry.2) (set found entry.1.1 entry.1.2)) default
  | _ => .error []

/-- The part of a text that a section looks at, given the names of the settings in order and how
each of them is read. -/
def Shape.known? (names : List String) (read : String → Shape → Option Json) : Shape → Option Json
  | object members => do
    let keyed ← members.mapM fun entry => (textOf? entry.1).map fun key => (key, entry.2)
    let found ← (keyed.filter fun entry => names.contains entry.1).mapM fun entry =>
      (read entry.1 entry.2).map fun value => (entry.1, value)
    return .object found
  | array items =>
    if names.length < items.length then none
    else ((names.zip items).mapM fun entry => read entry.1 entry.2).map .array
  | shape => shape.value?

end Json

namespace EngineConfig

def settingNames : List String :=
  ["souffle_path", "workers", "extra_args"]

def set (config : EngineConfig) (name : String) (value : Json) :
    Except SettingPath EngineConfig :=
  if name = "souffle_path" then value.asText.map fun path => { config with solverPath := path }
  else if name = "workers" then value.asCount.map fun count => { config with workers := count }
  else if name = "extra_args" then
    value.asTexts.map fun arguments => { config with extraArguments := arguments }
  else .ok config

end EngineConfig

namespace LogConfig

def settingNames : List String :=
  ["level", "format", "file"]

def set (config : LogConfig) (name : String) (value : Json) : Except SettingPath LogConfig :=
  if name = "level" then value.asText.map fun level => { config with level := level }
  else if name = "format" then value.asText.map fun format => { config with format := format }
  else if name = "file" then value.asOptionalText.map fun file => { config with file := file }
  else .ok config

end LogConfig

namespace OutputConfig

def settingNames : List String :=
  ["emit_comments"]

def set (config : OutputConfig) (name : String) (value : Json) :
    Except SettingPath OutputConfig :=
  if name = "emit_comments" then value.asFlag.map fun flag => { config with comments := flag }
  else .ok config

end OutputConfig

namespace Config

def sectionNames : List String :=
  ["engine", "logging", "translation"]

def set (config : Config) (name : String) (value : Json) : Except SettingPath Config :=
  if name = "engine" then
    (value.readSection EngineConfig.settingNames EngineConfig.set {}).map
      fun engine => { config with engine := engine }
  else if name = "logging" then
    (value.readSection LogConfig.settingNames LogConfig.set {}).map
      fun logging => { config with logging := logging }
  else if name = "translation" then
    (value.readSection OutputConfig.settingNames OutputConfig.set {}).map
      fun output => { config with output := output }
  else .ok config

def ofSettings (settings : Json) : Except SettingPath Config :=
  settings.readSection sectionNames set {}

def namesIn (name : String) : List String :=
  if name = "engine" then EngineConfig.settingNames
  else if name = "logging" then LogConfig.settingNames
  else if name = "translation" then OutputConfig.settingNames
  else []

/-- The tree of settings of a JSON text.  No text has more levels of brackets than characters. -/
def settingsOf? (text : String) : Option Json :=
  (Json.Shape.parse text.length text).bind fun shape =>
    shape.known? sectionNames fun name =>
      Json.Shape.known? (namesIn name) fun _ => Json.Shape.value?

def parseJson (text : String) : Except SettingPath Config :=
  match settingsOf? text with
  | some settings => ofSettings settings
  | none => .error []

end Config

end RelQuery
