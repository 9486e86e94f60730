import RelQuery.Json.Parser
import RelQuery.Json.Printer
import RelQuery.Relation.Basic

/-!
# Relations as JSON

A relation is written as an object with its types and its tuples.  It is read from such an object,
from the array of these two, or from an array of tuples, whose types are then inferred.
-/

namespace RelQuery

namespace Json

def toValue? : Json → Option Value
  | int n => if Text.fitsSigned 64 n then some (.number n) else none
  | string s => some (.symbol s)
  | _ => none

/-- The type that an item stands for: its name, or an object with its name and nothing else. -/
def toColumnType? : Json → Option ColumnType
  | string name => ColumnType.ofName? name
  | object [(name, null)] => ColumnType.ofName? name
  | _ => none

def toTuple? : Json → Option Tuple
  | array items => items.mapM toValue?
  | _ => none

def toTuples? : Json → Option (List Tuple)
  | array items => items.mapM toTuple?
  | _ => none

def toColumnTypes? : Json → Option (List ColumnType)
  | array items => items.mapM toColumnType?
  | _ => none

def typedRelation? (types tuples : Json) : Option Relation := do
  return ⟨← types.toColumnTypes?, ← tuples.toTuples?⟩

/-- A relation that comes with its types. -/
def toTypedRelation? : Json → Option Relation
  | object members =>
    match valuesOf "types" members, valuesOf "tuples" members with
    | [types], [tuples] => typedRelation? types tuples
    | _, _ => none
  | array [types, tuples] => typedRelation? types tuples
  | _ => none

def ofValue : Value → Json
  | .number n => int n
  | .symbol s => string s

def ofRelation (r : Relation) : Json :=
  object [("types", array (r.types.map fun type => string type.render)),
    ("tuples", array (r.tuples.map fun tuple => array (tuple.map ofValue)))]

end Json

namespace Relation

/-- The relation that a JSON value stands for.  A value that can be read with types is not read as
bare tuples. -/
def ofJson (json : Json) : Except RelationError Relation :=
  match json.toTypedRelation? with
  | some r => do
    r.validate
    return r
  | none =>
    match json.toTuples? with
    | some tuples => infer tuples
    | none => .error .notJson

def parseJson (text : String) : Except RelationError Relation :=
  match Json.parse text with
  | some json => ofJson json
  | none => .error .notJson

end Relation

end RelQuery
