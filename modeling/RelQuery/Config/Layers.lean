import RelQuery.Config.Settings
import RelQuery.Config.Variable
import RelQuery.Toml.Document

/-!
# Layers of settings

The configuration is read from settings files and environment variables.  Each layer is laid over
the ones before it, key by key; an array is replaced as a whole.  A file that is not there is an
empty layer.  A file that is not a settings file is an error at the root.
-/

namespace RelQuery.Config

/-- The settings files that are read when none is named. -/
def standardFiles : List String :=
  ["relat.toml", "relat.local.toml"]

def fileLayer (text : Option String) : Except SettingPath Json :=
  match text with
  | none => .ok (.object [])
  | some text =>
    match Toml.parse text with
    | some settings => .ok settings
    | none => .error []

def ofLayers (files : List (Option String)) (environment : List (String × String)) :
    Except SettingPath Config := do
  let layers ← files.mapM fileLayer
  let tree := (layers ++ [Variable.settings environment]).foldl Json.overlay (.object [])
  ofSettings tree

/-- The configuration that is in force: of one named file, or else of the standard files. -/
def load (named : Option String) (read : String → Option String)
    (environment : List (String × String)) : Except SettingPath Config :=
  let files := match named with
    | some file => [file]
    | none => standardFiles
  ofLayers (files.map read) environment

end RelQuery.Config
