import RelQuery.Toml.Date
import RelQuery.Toml.Number
import RelQuery.Toml.Quoted
import RelQuery.Toml.Table

/-!
# Keys and values in settings files

A key is a row of parts with points between them.  A value is a string, a number, a truth value, a
date, an array or an inline table.  A date stands in the tree of settings as an object of its own.
Keys have fewer than 80 parts, and brackets have fewer than 80 levels.
-/

namespace RelQuery.Toml

/-- Whether a character may stand in a key without quotes. -/
def isBare (c : Char) : Bool :=
  c.isAlphanum || c == '_' || c == '-'

def scanPart : List Char → Option (String × List Char)
  | '"' :: cs => (scanBasic cs).map fun found => (String.ofList found.1, found.2)
  | '\x27' :: cs => (scanLiteral cs).map fun found => (String.ofList found.1, found.2)
  | cs =>
    let part := cs.takeWhile isBare
    if part.isEmpty then none else some (String.ofList part, cs.dropWhile isBare)

/-- Reads at most `count` parts of a key with points between them. -/
def scanParts : Nat → List Char → Option (List String × List Char)
  | 0, _ => none
  | count + 1, cs =>
    (scanPart (skipBlank cs)).bind fun (part, rest) =>
      match skipBlank rest with
      | '.' :: more => Json.consFound part (scanParts count more)
      | after => some ([part], after)

/-- The most parts of a key and the most levels of brackets. -/
def maxDepth : Nat := 79

def scanKey (cs : List Char) : Option (List String × List Char) :=
  scanParts maxDepth cs

def wordValue? (word : List Char) : Option Json :=
  if word = "true".toList then some (.bool true)
  else if word = "false".toList then some (.bool false)
  else
    match integer? word with
    | some n => some (.int n)
    | none => if isReal word then some (.real (String.ofList word)) else none

/-- Whether a character belongs to a word without quotes. -/
def isWordPart (c : Char) : Bool :=
  isBare c || c == '+' || c == '.'

def dateValue (text : List Char) : Json :=
  .object [("date", .string (String.ofList text))]

/-- Reads a date or a word without quotes. -/
def scanWord (cs : List Char) : Option (Json × List Char) :=
  match skipDate cs with
  | some rest => some (dateValue (cs.take (cs.length - rest.length)), rest)
  | none =>
    (wordValue? (cs.takeWhile isWordPart)).map fun value => (value, cs.dropWhile isWordPart)

def inlineTable? (entries : List (List String × Json)) : Option Json :=
  (entries.foldlM (fun members entry => Members.assign entry.2 entry.1 members) []).map
    fun members => .object (Node.membersToJson members)

mutual

/-- Reads a value.  `depth` is the number of brackets that may still be opened. -/
def scanValue : Nat → Nat → List Char → Option (Json × List Char)
  | 0, _, _ => none
  | fuel + 1, depth, cs =>
    match scanString? cs with
    | some found => found.map fun found => (.string (String.ofList found.1), found.2)
    | none =>
      match cs with
      | '[' :: rest =>
        if depth = 0 then none
        else (scanItems fuel (depth - 1) rest).map fun found => (.array found.1, found.2)
      | '\x7b' :: rest =>
        if depth = 0 then none
        else
          match skipBlank rest with
          | '\x7d' :: after => some (.object [], after)
          | inner =>
            (scanEntries fuel (depth - 1) inner).bind fun (entries, after) =>
              (inlineTable? entries).map fun value => (value, after)
      | other => scanWord other

def scanItems : Nat → Nat → List Char → Option (List Json × List Char)
  | 0, _, _ => none
  | fuel + 1, depth, cs =>
    match skipLayout false cs with
    | ']' :: after => some ([], after)
    | inner =>
      (scanValue fuel depth inner).bind fun (item, rest) =>
        match skipLayout false rest with
        | ',' :: more => Json.consFound item (scanItems fuel depth more)
        | ']' :: after => some ([item], after)
        | _ => none

def scanEntries : Nat → Nat → List Char → Option (List (List String × Json) × List Char)
  | 0, _, _ => none
  | fuel + 1, depth, cs =>
    (scanKey cs).bind fun (path, rest) =>
      match rest with
      | '=' :: afterSign =>
        (scanValue fuel depth (skipBlank afterSign)).bind fun (value, rest) =>
          match skipBlank rest with
          | ',' :: more => Json.consFound (path, value) (scanEntries fuel depth more)
          | '\x7d' :: after => some ([(path, value)], after)
          | _ => none
      | _ => none

end

end RelQuery.Toml
