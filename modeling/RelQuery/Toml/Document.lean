import RelQuery.Toml.Value

/-!
# Settings files

A settings file is a TOML document: headers open tables, and lines give values to keys.  A document
is first cut into statements; then the statements are put into one tree, in which nothing is defined
twice.
-/

namespace RelQuery.Toml

/-- A line of a document: the header of a table, the header of a new element in an array of tables,
or a value for a key. -/
inductive Statement where
  | header (path : List String)
  | element (path : List String)
  | entry (path : List String) (value : Json)
  deriving Repr

/-- Reads the statement at the start of a text, to the end of its line. -/
def scanStatement (cs : List Char) : Option (Statement × List Char) :=
  match cs with
  | '[' :: '[' :: rest =>
    (scanKey rest).bind fun (path, after) =>
      match after with
      | ']' :: ']' :: after => (endLine? after).map fun rest => (.element path, rest)
      | _ => none
  | '[' :: rest =>
    (scanKey rest).bind fun (path, after) =>
      match after with
      | ']' :: after => (endLine? after).map fun rest => (.header path, rest)
      | _ => none
  | _ =>
    (scanKey cs).bind fun (path, after) =>
      match after with
      | '=' :: after =>
        (scanValue (2 * after.length + 2) maxDepth (skipBlank after)).bind fun (value, rest) =>
          (endLine? rest).map fun rest => (.entry path value, rest)
      | _ => none

/-- Reads the statements of a document.  Every statement takes a character, so a text has no more
statements than characters. -/
def scanStatements : Nat → List Char → Option (List Statement)
  | 0, _ => none
  | fuel + 1, cs =>
    match skipLayout false cs with
    | [] => some []
    | inner =>
      (scanStatement inner).bind fun (statement, rest) =>
        (scanStatements fuel rest).map (statement :: ·)

/-- A document as far as it is put together: its tree and the path of the table that is open. -/
structure Document where
  members : Members := []
  current : List String := []
  deriving Repr

namespace Document

def enter (document : Document) (path : List String)
    (change : String → Members → Option Members) : Option Document :=
  path.getLast?.bind fun key =>
    (document.members.changeAt (change key) path.dropLast).map fun members => ⟨members, path⟩

def add (document : Document) : Statement → Option Document
  | .header path => document.enter path Members.openTable
  | .element path => document.enter path Members.openElement
  | .entry path value =>
    (document.members.changeAt (Members.assign value path) document.current).map
      fun members => { document with members := members }

end Document

/-- A text without the mark that tells its encoding. -/
def dropMark : List Char → List Char
  | '\ufeff' :: cs => cs
  | cs => cs

def parse (text : String) : Option Json :=
  (scanStatements (text.length + 1) (dropMark text.toList)).bind fun statements =>
    (statements.foldlM Document.add {}).map fun document =>
      .object (Node.membersToJson document.members)

end RelQuery.Toml
