import RelQuery.Compile.Definition

/-!
# Names and comprehensions

A name bound to a relation is that relation.  A scalar is the relation of its own value, which
depends on the scalar.  A comprehension binds its variables to the columns of its constraint and
collects the tuples of its body over all of them.
-/

namespace RelQuery.Compile

open Datalog (Term Literal Rule)

def emitScalar (scalar : String) (binding : ScalarBinding) : Emit Emission := do
  let name ← freshRelation
  let result : Predicate :=
    ⟨name, [.named binding.type scalar], mergeParams [scalar] binding.params⟩
  return .single result "identifier"
    [⟨result.atomOf [paramVar scalar], [.positive binding.constraint]⟩]

/-- The first name that is bound already or repeats an earlier one. -/
def firstRebound? (scope : Scope) : List String → List String → Option String
  | _, [] => none
  | seen, name :: rest =>
    if scope.isBound name || seen.contains name then some name
    else firstRebound? scope (name :: seen) rest

/-- The scalar of the variable at place `k`: the constraint with every other column ignored. -/
def comprehensionScalar (constraint : Predicate) (names : List String) (k : Nat) (name : String)
    (column : Column) : ScalarBinding where
  type := column.type
  constraint := constraint.atom
    (names.mapIdx fun j _ => if k = j then .var (paramVar name) else .wildcard)
  params := constraint.params

def comprehensionScope (scope : Scope) (constraint : Predicate) (names : List String) : Scope :=
  (names.zip constraint.columns).zipIdx.foldl
    (fun inner entry =>
      inner.bind entry.1.1
        (.scalar (comprehensionScalar constraint names entry.2 entry.1.1 entry.1.2)))
    scope

/-- Fails unless there is one variable for each column of the constraint. -/
def ensureVariables (names : List String) (constraint : Predicate) : Except Cause Unit :=
  ensureArity "Constraint of comprehension" names.length constraint

/-- The columns that the variables of a comprehension add to those of its body. -/
def variableColumns (style : Style) (names : List String) (constraint : Predicate) : List Column :=
  match style with
  | .keep => (names.zip constraint.columns).map fun entry => .named entry.2.type entry.1
  | .image => []

def comprehensionLabel : Style → String
  | .keep => "comprehension"
  | .image => "from-comprehension"

/-- The tuples of `body` over all tuples of `constraint`. -/
def emitComprehension (style : Style) (names : List String) (constraint body : Predicate) :
    Emit Emission := do
  let vars ← freshVars body.columns
  let name ← freshRelation
  let result : Predicate :=
    ⟨name, variableColumns style names constraint ++ body.columns,
      mergeParams (body.params.filter fun param => !names.contains param) constraint.params⟩
  let bound := names.map paramVar
  let kept := match style with
    | .keep => bound
    | .image => []
  return .single result (comprehensionLabel style)
    [⟨result.atomOf (kept ++ vars),
      [.positive (body.atomOf vars), .positive (constraint.atomOf bound)]⟩]

end RelQuery.Compile
