import RelQuery.Datalog.Basic

/-!
# Predicates of compiled expressions

A compiled expression is a predicate: a relation of a Datalog program with typed columns.  Behind
its columns a predicate has parameters, the scalars of enclosing comprehensions on which its tuples
depend.  In every rule the parameter `x` is the variable `x_e`, so that atoms of one rule agree on
the scalars they share.
-/

namespace RelQuery

/-- A column of a predicate: its type and the stem of its attribute and variable names. -/
structure Column where
  type : ColumnType
  stem : String
  deriving DecidableEq, Repr

namespace Column

/-- The letters, digits and underscores of a name, after a `v` unless a letter comes first. -/
def sanitize (name : String) : String :=
  let kept := name.toList.filter fun c => c.isAlphanum || c == '_'
  if (kept.head?.map Char.isAlpha).getD false then String.ofList kept
  else String.ofList ('v' :: kept)

def named (type : ColumnType) (name : String) : Column :=
  ⟨type, sanitize name⟩

end Column

/-- The Datalog variable that stands for a scalar. -/
def paramVar (scalar : String) : String :=
  scalar ++ "_e"

/-- The names of the first list, then each name of the second that has not come before. -/
def mergeParams (first second : List String) : List String :=
  second.foldl (fun merged name => if merged.contains name then merged else merged ++ [name]) first

/-- A relation of a program, with the scalars on which its tuples depend. -/
structure Predicate where
  name : String
  columns : List Column
  params : List String
  deriving DecidableEq, Repr

namespace Predicate

open Datalog (Term Atom)

/-- The number of columns, parameters apart. -/
def arity (p : Predicate) : Nat :=
  p.columns.length

def types (p : Predicate) : List ColumnType :=
  p.columns.map (·.type)

def firstType? (p : Predicate) : Option ColumnType :=
  p.types.head?

def lastType? (p : Predicate) : Option ColumnType :=
  p.types.getLast?

/-- The predicate applied to terms for its columns, with its parameters behind them. -/
def atom (p : Predicate) (terms : List Term) : Atom :=
  ⟨p.name, terms ++ p.params.map fun scalar => .var (paramVar scalar)⟩

def atomOf (p : Predicate) (vars : List String) : Atom :=
  p.atom (vars.map .var)

def wildcards (p : Predicate) : List Term :=
  List.replicate p.arity .wildcard

def wildcardAtom (p : Predicate) : Atom :=
  p.atom p.wildcards

/-- The names of the attributes in the declaration: stems with their place, then parameters. -/
def attributeNames (p : Predicate) : List String :=
  p.columns.mapIdx (fun k column => column.stem ++ "_" ++ toString k) ++ p.params.map paramVar

end Predicate

def renderSignature (types : List ColumnType) : String :=
  "(" ++ ", ".intercalate (types.map (·.render)) ++ ")"

end RelQuery
