import RelQuery.Json.Basic

/-!
# Written JSON

Values are written without layout, or with every item on a line of its own and two blanks for each
level.
-/

namespace RelQuery.Json

/-- A code below 32 as four hexadecimal digits. -/
def hexCode (code : Nat) : List Char :=
  (List.replicate 4 '0' ++ Nat.toDigits 16 code).drop (Nat.toDigits 16 code).length

/-- A character as it stands in a string. -/
def escapeChar (c : Char) : List Char :=
  if c = '"' then ['\\', '"']
  else if c = '\\' then ['\\', '\\']
  else if c = '\n' then ['\\', 'n']
  else if c = '\r' then ['\\', 'r']
  else if c = '\t' then ['\\', 't']
  else if c = '\x08' then ['\\', 'b']
  else if c = '\x0c' then ['\\', 'f']
  else if c.toNat < 32 then '\\' :: 'u' :: hexCode c.toNat
  else [c]

def renderString (value : String) : String :=
  String.ofList ('"' :: value.toList.flatMap escapeChar ++ ['"'])

mutual

/-- A value without layout. -/
def render : Json → String
  | null => "null"
  | bool value => if value then "true" else "false"
  | int value => toString value
  | real text => text
  | string value => renderString value
  | array items => "[" ++ ",".intercalate (renderItems items) ++ "]"
  | object members => "\x7b" ++ ",".intercalate (renderMembers members) ++ "\x7d"

def renderItems : List Json → List String
  | [] => []
  | item :: rest => item.render :: renderItems rest

def renderMembers : List (String × Json) → List String
  | [] => []
  | (key, value) :: rest => (renderString key ++ ":" ++ value.render) :: renderMembers rest

end

def newline (level : Nat) : String :=
  "\n" ++ String.ofList (List.replicate (2 * level) ' ')

/-- Items on lines of their own between brackets of a given level. -/
def renderBlock (level : Nat) (opening closing : String) (items : List String) : String :=
  if items.isEmpty then opening ++ closing
  else
    opening ++ newline (level + 1) ++ ("," ++ newline (level + 1)).intercalate items
      ++ newline level ++ closing

mutual

/-- A value that starts on a line of a given level. -/
def renderPrettyAt (level : Nat) : Json → String
  | null => "null"
  | bool value => if value then "true" else "false"
  | int value => toString value
  | real text => text
  | string value => renderString value
  | array items => renderBlock level "[" "]" (prettyItems (level + 1) items)
  | object members => renderBlock level "\x7b" "\x7d" (prettyMembers (level + 1) members)

def prettyItems (level : Nat) : List Json → List String
  | [] => []
  | item :: rest => item.renderPrettyAt level :: prettyItems level rest

def prettyMembers (level : Nat) : List (String × Json) → List String
  | [] => []
  | (key, value) :: rest =>
    (renderString key ++ ": " ++ value.renderPrettyAt level) :: prettyMembers level rest

end

/-- A value with every item on a line of its own. -/
def renderPretty (json : Json) : String :=
  json.renderPrettyAt 0

end RelQuery.Json
