import RelQuery.Scalar.Basic
import RelQuery.Text.Basic

/-!
# Relations

A relation is a list of column types and a list of tuples.  A relation without columns is a truth
value: it is true when it has a tuple.  In normal form the tuples are strictly increasing, numbers
before symbols, numbers by value, symbols by code points, and tuples by their first difference.
-/

namespace RelQuery

inductive Value where
  | number (value : Int)
  | symbol (value : String)
  deriving DecidableEq, Repr

namespace Value

def type : Value → ColumnType
  | number _ => .number
  | symbol _ => .symbol

def render : Value → String
  | number n => toString n
  | symbol s => s

/-- The value as one of another type: a number by its digits, a symbol by the integer of 64 bits
that it spells between blanks. -/
def coerce (type : ColumnType) : Value → Option Value
  | number n =>
    match type with
    | .number => some (number n)
    | .symbol => some (symbol (toString n))
  | symbol s =>
    match type with
    | .number => (Text.readSigned? 64 (Text.trimBlanks s.toList)).map number
    | .symbol => some (symbol s)

def before : Value → Value → Bool
  | number m, number n => decide (m < n)
  | number _, symbol _ => true
  | symbol _, number _ => false
  | symbol s, symbol t => decide (s < t)

end Value

abbrev Tuple : Type :=
  List Value

namespace Tuple

def before : Tuple → Tuple → Bool
  | [], [] => false
  | [], _ :: _ => true
  | _ :: _, [] => false
  | a :: as, b :: bs => a.before b || (a == b && before as bs)

end Tuple

/-- What is wrong with the tuples of a relation.  Rows and columns count from zero. -/
inductive RelationError where
  | emptyInference
  | widthMismatch (row expected found : Nat)
  | typeMismatch (row column : Nat) (expected : ColumnType) (found : String)
  | notJson
  deriving DecidableEq, Repr

def RelationError.message : RelationError → String
  | emptyInference => "Cannot infer types of empty relation"
  | widthMismatch row expected found =>
    s!"Tuple {row} has {found} values, expected {expected}"
  | typeMismatch row column expected found =>
    s!"Tuple {row}, column {column}: expected " ++ expected.render ++ ", found " ++ found
  | notJson => "Invalid relation JSON"

structure Relation where
  types : List ColumnType
  tuples : List Tuple
  deriving DecidableEq, Repr

namespace Relation

def arity (r : Relation) : Nat :=
  r.types.length

def size (r : Relation) : Nat :=
  r.tuples.length

def isEmpty (r : Relation) : Bool :=
  r.tuples.isEmpty

def ofBool (value : Bool) : Relation :=
  ⟨[], if value then [[]] else []⟩

def toBool? (r : Relation) : Option Bool :=
  if r.types.isEmpty then some !r.tuples.isEmpty else none

/-- Fails at the first value of a tuple that is not of the type of its column. -/
def checkValues (row : Nat) : Nat → Tuple → List ColumnType → Except RelationError Unit
  | column, value :: values, type :: types =>
    if value.type = type then checkValues row (column + 1) values types
    else .error (.typeMismatch row column type value.render)
  | _, _, _ => .ok ()

def checkWidth (types : List ColumnType) (row : Nat) (tuple : Tuple) : Except RelationError Unit :=
  if tuple.length = types.length then .ok ()
  else .error (.widthMismatch row types.length tuple.length)

def checkTuple (types : List ColumnType) (row : Nat) (tuple : Tuple) :
    Except RelationError Unit := do
  checkWidth types row tuple
  checkValues row 0 tuple types

/-- Fails at the first tuple that does not have one value of each type. -/
def validate (r : Relation) : Except RelationError Unit :=
  r.tuples.zipIdx.forM fun entry => checkTuple r.types entry.2 entry.1

/-- A relation whose tuples have been checked. -/
def make (types : List ColumnType) (tuples : List Tuple) : Except RelationError Relation := do
  let r : Relation := ⟨types, tuples⟩
  r.validate
  return r

/-- The relation of some tuples; the first tuple gives the types. -/
def infer : List Tuple → Except RelationError Relation
  | [] => .error .emptyInference
  | first :: rest => make (first.map (·.type)) (first :: rest)

def coerceValues (row : Nat) : Nat → Tuple → List ColumnType → Except RelationError Tuple
  | column, value :: values, type :: types =>
    match value.coerce type with
    | some coerced => do
      let rest ← coerceValues row (column + 1) values types
      return coerced :: rest
    | none => .error (.typeMismatch row column type value.render)
  | _, _, _ => .ok []

def coerceTuple (types : List ColumnType) (row : Nat) (tuple : Tuple) :
    Except RelationError Tuple := do
  checkWidth types row tuple
  coerceValues row 0 tuple types

def coerce (r : Relation) (types : List ColumnType) : Except RelationError Relation := do
  let tuples ← r.tuples.zipIdx.mapM fun entry => coerceTuple types entry.2 entry.1
  return ⟨types, tuples⟩

def normalize (r : Relation) : Relation :=
  { r with tuples := Text.dropRepeats (r.tuples.mergeSort fun a b => !Tuple.before b a) }

end Relation

end RelQuery
