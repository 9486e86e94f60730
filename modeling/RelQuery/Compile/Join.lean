import RelQuery.Compile.Definition

/-!
# Joins, products, applications and restrictions

A join matches the last column of one relation with the first column of another and drops both.
An application matches the first columns of a relation with all columns of its argument and keeps
the rest; a restriction keeps them all.
-/

namespace RelQuery.Compile

open Datalog (Term Literal Rule)

/-- The failure of an operator on two relations whose column types do not go together. -/
def mismatch (operator relationship : String) (a b : Predicate) : Cause :=
  .signatureMismatch operator relationship a.types b.types

/-- The last column of `a` is matched with the first column of `b`. -/
def emitJoin (a b : Predicate) : Emit Emission := do
  ensureColumn "Left-hand side of dot-join" a
  ensureColumn "Right-hand side of dot-join" b
  match a.lastType?, b.firstType? with
  | some last, some first =>
    ensureType "First column of right-hand side of dot-join" last first
  | _, _ => pure ()
  let left ← freshVars a.columns
  let right ← freshVars b.columns
  let name ← freshRelation
  let result : Predicate :=
    ⟨name, a.columns.dropLast ++ b.columns.tail, mergeParams a.params b.params⟩
  return .single result "dot-join"
    [⟨result.atomOf (left.dropLast ++ right.tail),
      [.positive (a.atomOf left), .positive (b.atomOf (left.getLast?.toList ++ right.tail))]⟩]

def emitDropLast (a : Predicate) : Emit Emission := do
  ensureColumn "Left-hand side of dot-join" a
  let kept := a.columns.dropLast
  let vars ← freshVars kept
  let name ← freshRelation
  let result : Predicate := ⟨name, kept, a.params⟩
  return .single result "wildcard dot-join"
    [⟨result.atomOf vars, [.positive (a.atom (vars.map .var ++ [.wildcard]))]⟩]

def emitDropFirst (a : Predicate) : Emit Emission := do
  ensureColumn "Operand of wildcard application" a
  let kept := a.columns.tail
  let vars ← freshVars kept
  let name ← freshRelation
  let result : Predicate := ⟨name, kept, a.params⟩
  return .single result "wildcard application"
    [⟨result.atomOf vars, [.positive (a.atom (.wildcard :: vars.map .var))]⟩]

/-- Every tuple of `a` is followed by every tuple of `b`. -/
def emitProduct (a b : Predicate) : Emit Emission := do
  let left ← freshVars a.columns
  let right ← freshVars b.columns
  let name ← freshRelation
  let result : Predicate := ⟨name, a.columns ++ b.columns, mergeParams a.params b.params⟩
  return .single result "cartesian product"
    [⟨result.atomOf (left ++ right), [.positive (a.atomOf left), .positive (b.atomOf right)]⟩]

/-- The first columns of `a` are matched with the columns of `b` and dropped. -/
def emitApply (a b : Predicate) : Emit Emission := do
  ensure (b.types.isPrefixOf a.types) (mismatch "application" "prefix-compatible" a b)
  let vars ← freshVars a.columns
  let name ← freshRelation
  let result : Predicate := ⟨name, a.columns.drop b.arity, mergeParams a.params b.params⟩
  return .single result "application"
    [⟨result.atomOf (vars.drop b.arity),
      [.positive (a.atomOf vars), .positive (b.atomOf (vars.take b.arity))]⟩]

/-- The tuples of `b` whose first columns are a tuple of `a`. -/
def emitDomainRestrict (a b : Predicate) : Emit Emission := do
  ensure (a.types.isPrefixOf b.types) (mismatch "prefix join" "prefix-compatible" a b)
  let vars ← freshVars b.columns
  let name ← freshRelation
  let result : Predicate := ⟨name, b.columns, mergeParams a.params b.params⟩
  return .single result "prefix join"
    [⟨result.atomOf vars, [.positive (b.atomOf vars), .positive (a.atomOf (vars.take a.arity))]⟩]

/-- The tuples of `a` whose last columns are a tuple of `b`. -/
def emitRangeRestrict (a b : Predicate) : Emit Emission := do
  ensure (b.types.isSuffixOf a.types) (mismatch "suffix join" "suffix-compatible" a b)
  let vars ← freshVars a.columns
  let name ← freshRelation
  let result : Predicate := ⟨name, a.columns, mergeParams a.params b.params⟩
  return .single result "suffix join"
    [⟨result.atomOf vars,
      [.positive (a.atomOf vars), .positive (b.atomOf (vars.drop (a.arity - b.arity)))]⟩]

end RelQuery.Compile
