import RelQuery.Engine.Basic
import RelQuery.Text.Basic

/-!
# Facts files and output files

A relation is written with one tuple on a line and tabs between values; the tuple without values is
written `()`.  Symbols are written as they are, so they must not hold a tab or a line break, and
numbers must fit in 32 bits.  Outputs are read in the same form, by the types that are expected;
empty lines are passed over and not counted.
-/

namespace RelQuery

/-- The line of the tuple without values. -/
def emptyTuple : List Char :=
  ['(', ')']

def Value.field : Value → Except FactFault (List Char)
  | number n =>
    if Text.fitsSigned 32 n then .ok (toString n).toList else .error (.oversizedNumber n)
  | symbol s =>
    if s.toList.any fun c => c == '\t' || c == '\n' || c == '\r' then .error (.brokenSymbol s)
    else .ok s.toList

def joinFields : List (List Char) → List Char
  | [] => []
  | [field] => field
  | field :: rest => field ++ '\t' :: joinFields rest

def Tuple.line (tuple : Tuple) : Except FactFault (List Char) :=
  if tuple.isEmpty then .ok emptyTuple
  else do
    let fields ← tuple.mapM Value.field
    return joinFields fields

namespace Relation

def facts (r : Relation) : Except FactFault String := do
  let lines ← r.tuples.mapM Tuple.line
  return String.ofList (lines.flatMap (· ++ ['\n']))

/-- The value of a field in a column of a given type. -/
def readField (line : Nat) (field : List Char) : ColumnType → Except OutputFault Value
  | .number =>
    match Text.readSigned? 64 field with
    | some n => .ok (.number n)
    | none => .error (.notNumber line (String.ofList field))
  | .symbol => .ok (.symbol (String.ofList field))

def fieldsOf (line : List Char) : List (List Char) :=
  if line = emptyTuple then [] else Text.pieces '\t' line

/-- The tuple of a line, which has the given number. -/
def readLine (types : List ColumnType) (number : Nat) (line : List Char) :
    Except OutputFault Tuple :=
  let fields := fieldsOf line
  if fields.length = types.length then
    (fields.zip types).mapM fun entry => readField number entry.1 entry.2
  else .error (.wrongWidth number fields.length types.length)

/-- The relation of given types that an output file holds. -/
def ofOutput (types : List ColumnType) (text : String) : Except OutputFault Relation := do
  let lines := (Text.linesOf text.toList).filter fun line => !line.isEmpty
  let tuples ← lines.zipIdx.mapM fun entry => readLine types (entry.2 + 1) entry.1
  return ⟨types, tuples⟩

end Relation

end RelQuery
