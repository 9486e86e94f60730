import RelQuery.Text.Basic
import RelQuery.Toml.Document

/-!
# Settings in environment variables

A variable whose name starts with the program's mark sets the setting that the rest of its name
spells, in any case, with two underscores between keys.  Its value is read as a truth value, an
integer, a number, a quoted text, an array or an object, where a comma may stand behind the last
item; if it is none of these, it is taken as it stands.
-/

namespace RelQuery.Variable

/-- The mark of the program, in lower case. -/
def mark : List Char :=
  "relat_".toList

/-- A name with points for pairs of underscores. -/
def pointed : List Char → List Char
  | '_' :: '_' :: cs => '.' :: pointed cs
  | c :: cs => c :: pointed cs
  | [] => []

def settingPath? (name : String) : Option (List String) :=
  let lower := (Text.trimBlanks name.toList).map Char.toLower
  if mark.isPrefixOf lower then
    let keys := Text.pieces '.' (Text.trimBlanks (pointed (lower.drop mark.length)))
    if keys.any List.isEmpty then none else some (keys.map String.ofList)
  else none

def isSpace (c : Char) : Bool :=
  c == ' ' || c == '\t' || c == '\n' || c == '\x0c' || c == '\r'

def skipSpace (cs : List Char) : List Char :=
  cs.dropWhile isSpace

/-- Whether a character ends a word without quotes. -/
def isSeparator (c : Char) : Bool :=
  c == ',' || c == '\x7b' || c == '\x7d' || c == '[' || c == ']'

/-- Whether a word with a point in it is a number. -/
def isReal (word : List Char) : Bool :=
  let unsigned := Toml.dropSign word
  let (whole, afterWhole) := Json.spanDigits unsigned
  match afterWhole with
  | '.' :: cs =>
    let (fraction, afterFraction) := Json.spanDigits cs
    (!whole.isEmpty || !fraction.isEmpty) &&
      ((Json.scanExponent afterFraction).map fun found => found.2.isEmpty).getD false
  | _ => false

/-- The integer of a word: one that fits a word of 64 bits, with or without a sign. -/
def integer? (word : List Char) : Option Int :=
  (Text.readInt? word).filter fun n => Text.fitsUnsigned 64 n || Text.fitsSigned 64 n

def wordValue (word : List Char) : Json :=
  if isReal word then .real (String.ofList word)
  else
    match integer? word with
    | some n => .int n
    | none => .string (String.ofList word)

/-- Splits a quoted text off at its closing quote, which no backslash precedes. -/
def spanQuoted : List Char → Option (List Char × List Char)
  | [] => none
  | '"' :: cs => some ([], cs)
  | '\\' :: c :: cs => Json.consFound '\\' (Json.consFound c (spanQuoted cs))
  | c :: cs => Json.consFound c (spanQuoted cs)

/-- The text between two quotes.  If it has escapes, then of what stands before the first of them as
many bytes are kept as it has characters. -/
def unquote? (inner : List Char) : Option (List Char) := do
  let plain := inner.takeWhile (· != '\\')
  let (text, _) ← Toml.scanBasic (inner ++ ['"'])
  if plain.length = inner.length then return text
  let kept ← Text.takeBytes? plain.length inner
  return kept ++ text.drop plain.length

def scanQuoted (cs : List Char) : Option (String × List Char) :=
  (spanQuoted cs).bind fun found =>
    (unquote? found.1).map fun text => (String.ofList text, found.2)

def scanKey : List Char → Option (String × List Char)
  | '"' :: cs => scanQuoted cs
  | cs =>
    let key := cs.takeWhile Toml.isBare
    if key.isEmpty then none else some (String.ofList key, cs.dropWhile Toml.isBare)

mutual

def scanValue : Nat → List Char → Option (Json × List Char)
  | 0, _ => none
  | fuel + 1, cs =>
    let found : Option (Json × List Char) := match skipSpace cs with
      | 't' :: 'r' :: 'u' :: 'e' :: rest => some (.bool true, rest)
      | 'f' :: 'a' :: 'l' :: 's' :: 'e' :: rest => some (.bool false, rest)
      | '\x7b' :: rest =>
        (scanMembers fuel rest).map fun found => (.object (NameMap.ofList found.1).entries, found.2)
      | '[' :: rest => (scanItems fuel rest).map fun found => (.array found.1, found.2)
      | '"' :: rest => (scanQuoted rest).map fun found => (.string found.1, found.2)
      | '\x27' :: c :: '\x27' :: rest => some (.string (String.ofList [c]), rest)
      | '\x27' :: _ => none
      | other =>
        some (wordValue (Text.trimBlanks (other.takeWhile fun c => !isSeparator c)),
          other.dropWhile fun c => !isSeparator c)
    found.map fun found => (found.1, skipSpace found.2)

def scanItems : Nat → List Char → Option (List Json × List Char)
  | 0, _ => none
  | fuel + 1, cs =>
    match cs with
    | ']' :: after => some ([], after)
    | _ =>
      (scanValue fuel cs).bind fun (item, rest) =>
        match rest with
        | ',' :: more => Json.consFound item (scanItems fuel more)
        | ']' :: after => some ([item], after)
        | _ => none

def scanMembers : Nat → List Char → Option (List (String × Json) × List Char)
  | 0, _ => none
  | fuel + 1, cs =>
    match cs with
    | '\x7d' :: after => some ([], after)
    | _ =>
      (scanKey (skipSpace cs)).bind fun (key, afterKey) =>
        match skipSpace afterKey with
        | '=' :: afterSign =>
          (scanValue fuel afterSign).bind fun (value, rest) =>
            match rest with
            | ',' :: more => Json.consFound (key, value) (scanMembers fuel more)
            | '\x7d' :: after => some ([(key, value)], after)
            | _ => none
        | _ => none

end

def value (text : String) : Json :=
  match scanValue (2 * text.length + 2) text.toList with
  | some (found, []) => found
  | _ => .string text

/-- The settings of all variables; of two for one setting the later counts. -/
def settings (environment : List (String × String)) : Json :=
  environment.foldl
    (fun found entry =>
      match settingPath? entry.1 with
      | some path => found.overlay (Json.nest path (value entry.2))
      | none => found)
    (.object [])

end RelQuery.Variable
