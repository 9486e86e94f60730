import RelQuery.Schema.Cause
import RelQuery.Schema.Predicate

/-!
# Scopes

A scope binds names to predicates and to scalars.  A scalar carries the atom that ranges over the
values it may take, and the scalars on which that atom depends.  No name is bound twice.
-/

namespace RelQuery

open Datalog (Atom Attribute Decl Literal)

structure ScalarBinding where
  type : ColumnType
  /-- The atom that ranges over the values of the scalar. -/
  constraint : Atom
  /-- The scalars on which the atom depends. -/
  params : List String
  deriving DecidableEq, Repr

inductive Binding where
  | scalar (scalar : ScalarBinding)
  | relation (predicate : Predicate)
  deriving DecidableEq, Repr

inductive BindingKind where
  | scalar (type : ColumnType)
  | relation (types : List ColumnType)
  deriving DecidableEq, Repr

def BindingKind.render : BindingKind → String
  | scalar type => "scalar " ++ type.render
  | relation types => "relation " ++ renderSignature types

def Binding.kind : Binding → BindingKind
  | scalar s => .scalar s.type
  | relation p => .relation p.types

/-- The names of a scope with their kinds, the outermost first. -/
structure Snapshot where
  entries : List (String × BindingKind)
  deriving DecidableEq, Repr

namespace Snapshot

def contains (snapshot : Snapshot) (name : String) : Bool :=
  snapshot.entries.any (·.1 == name)

def render (snapshot : Snapshot) : String :=
  "\x7b" ++ ", ".intercalate (snapshot.entries.map fun entry => entry.1 ++ ": " ++ entry.2.render)
    ++ "\x7d"

end Snapshot

/-- The bindings in effect, the innermost first. -/
structure Scope where
  frames : List (String × Binding)
  deriving DecidableEq, Repr

namespace Scope

def empty : Scope := ⟨[]⟩

def lookup (scope : Scope) (name : String) : Option Binding :=
  scope.frames.lookup name

def isBound (scope : Scope) (name : String) : Bool :=
  (scope.lookup name).isSome

def scalar? (scope : Scope) (name : String) : Option ScalarBinding :=
  match scope.lookup name with
  | some (.scalar s) => some s
  | _ => none

def bind (scope : Scope) (name : String) (binding : Binding) : Scope :=
  ⟨(name, binding) :: scope.frames⟩

/-- Binds a name that is not yet bound. -/
def extend (scope : Scope) (name : String) (binding : Binding) : Except Cause Scope :=
  if scope.isBound name then .error (.alreadyBound name) else .ok (scope.bind name binding)

def inputPredicate (name : String) (types : List ColumnType) : Predicate :=
  ⟨name, types.map fun type => Column.named type name, []⟩

def ofInputs (inputs : List (String × List ColumnType)) : Except Cause Scope :=
  inputs.foldlM (fun scope input =>
    scope.extend input.1 (.relation (inputPredicate input.1 input.2))) empty

/-- The bindings, the outermost first. -/
def bindings (scope : Scope) : List (String × Binding) :=
  scope.frames.reverse

def size (scope : Scope) : Nat :=
  scope.frames.length

/-- The names of the scalars, the outermost first. -/
def scalarNames (scope : Scope) : List String :=
  scope.bindings.filterMap fun
    | (name, .scalar _) => some name
    | (_, .relation _) => none

/-- The names bound to predicates, the outermost first. -/
def relations (scope : Scope) : List (String × Predicate) :=
  scope.bindings.filterMap fun
    | (name, .relation p) => some (name, p)
    | (_, .scalar _) => none

def snapshot (scope : Scope) : Snapshot :=
  ⟨scope.bindings.map fun entry => (entry.1, entry.2.kind)⟩

/-- Literals that bind the variables of all `params` that are not among `bound`.  The atom of a
scalar binds the scalars on which it depends as well. -/
def ground (scope : Scope) : List String → List String → Except Cause (List Literal)
  | [], _ => .ok []
  | name :: rest, bound =>
    if bound.contains name then scope.ground rest bound
    else
      match scope.scalar? name with
      | none => .error (.ungrounded name)
      | some s => do
        let literals ← scope.ground rest (name :: s.params ++ bound)
        return .positive s.constraint :: literals

def paramType (scope : Scope) (relation param : String) : Except Cause ColumnType :=
  match scope.scalar? param with
  | some s => .ok s.type
  | none => .error (.unscoped param relation)

/-- The declaration of a predicate; its parameters have the types of the scalars in scope. -/
def declare (scope : Scope) (p : Predicate) (choiceDomains : List (List String)) :
    Except Cause Decl := do
  let paramTypes ← p.params.mapM (scope.paramType p.name)
  let attributes := (p.attributeNames.zip (p.types ++ paramTypes)).map fun a => ⟨a.1, a.2⟩
  return ⟨p.name, attributes, choiceDomains⟩

end Scope

end RelQuery
