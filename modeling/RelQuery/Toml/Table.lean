import RelQuery.Json.Basic

/-!
# Tables

Tables are put together statement by statement.  A table remembers where it came from, because that
decides what may still be added to it: a header opens a table once, and a key with points adds only
to tables that such keys made.  An array of tables is always added to at its end.
-/

namespace RelQuery.Toml

/-- Where a table came from: a header of its own, the way to the table of another header, or a key
with points. -/
inductive Origin where
  | header
  | way
  | key
  deriving DecidableEq, Repr

inductive Node where
  | value (json : Json)
  | table (origin : Origin) (members : List (String × Node))
  | tables (elements : List Node)
  deriving Repr

/-- The members of a table, in increasing order of keys. -/
abbrev Members : Type :=
  List (String × Node)

namespace Node

mutual

def toJson : Node → Json
  | value json => json
  | table _ members => .object (membersToJson members)
  | tables elements => .array (elementsToJson elements)

def membersToJson : List (String × Node) → List (String × Json)
  | [] => []
  | (key, node) :: rest => (key, toJson node) :: membersToJson rest

def elementsToJson : List Node → List Json
  | [] => []
  | node :: rest => toJson node :: elementsToJson rest

end

end Node

namespace Members

/-- Changes the members of the table at the end of a path.  Tables that are not there are made, and
an array of tables is passed through its last element. -/
def changeAt (change : Members → Option Members) : List String → Members → Option Members
  | [], members => change members
  | key :: path, members =>
    match members.lookup key with
    | none =>
      (changeAt change path []).map fun inner =>
        NameMap.insertEntry key (.table .way inner) members
    | some (.table origin inner) =>
      (changeAt change path inner).map fun changed =>
        NameMap.insertEntry key (.table origin changed) members
    | some (.tables elements) =>
      match elements.getLast? with
      | some (.table origin inner) =>
        (changeAt change path inner).map fun changed =>
          NameMap.insertEntry key (.tables (elements.dropLast ++ [.table origin changed])) members
      | _ => none
    | some (.value _) => none

/-- Opens the table of a key, which no header has opened and no key with points has made. -/
def openTable (key : String) (members : Members) : Option Members :=
  match members.lookup key with
  | none => some (NameMap.insertEntry key (.table .header []) members)
  | some (.table .way inner) => some (NameMap.insertEntry key (.table .header inner) members)
  | _ => none

/-- Opens a new table at the end of the array of tables of a key. -/
def openElement (key : String) (members : Members) : Option Members :=
  match members.lookup key with
  | none => some (NameMap.insertEntry key (.tables [.table .header []]) members)
  | some (.tables elements) =>
    some (NameMap.insertEntry key (.tables (elements ++ [.table .header []])) members)
  | _ => none

/-- Gives a value to a key with points, which must have none.  The table that gets it must have been
made by such a key, and no table of a header may lie on the way. -/
def assign (value : Json) : List String → Members → Option Members
  | [], _ => none
  | [key], members =>
    match members.lookup key with
    | none => some (NameMap.insertEntry key (.value value) members)
    | some _ => none
  | key :: path, members =>
    match members.lookup key with
    | none =>
      (assign value path []).map fun inner =>
        NameMap.insertEntry key (.table .key inner) members
    | some (.table origin inner) =>
      if origin = .header ∨ (origin = .way ∧ path.length = 1) then none
      else
        (assign value path inner).map fun changed =>
          NameMap.insertEntry key (.table origin changed) members
    | some (.tables elements) =>
      match elements.getLast? with
      | some (.table origin inner) =>
        if path.length = 1 then none
        else
          (assign value path inner).map fun changed =>
            NameMap.insertEntry key (.tables (elements.dropLast ++ [.table origin changed])) members
      | _ => none
    | some (.value _) => none

end Members

end RelQuery.Toml
