import RelQuery.Compile.Definition

/-!
# Quantifiers and set operations

A quantifier gives a relation without columns.  A set operation gives a relation of the columns
that its operands share.  A rule whose positive atoms leave a parameter open gets the literals that
ground it.
-/

namespace RelQuery.Compile

open Datalog (Term Literal Rule)

/-- Holds where a relation has a tuple, or where it has none. -/
def emitQuantifier (quantifier : Quantifier) (a : Predicate) (scope : Scope) : Emit Emission := do
  let name ← freshRelation
  let result : Predicate := ⟨name, [], a.params⟩
  match quantifier with
  | .some =>
    return .single result "some" [⟨result.atom [], [.positive a.wildcardAtom]⟩]
  | .no =>
    let grounding ← scope.ground a.params []
    return .single result "not" [⟨result.atom [], .negated a.wildcardAtom :: grounding⟩]

/-- The tuples in one of two relations, in both, or in the first only. -/
def emitSetOperation (operation : SetOp) (a b : Predicate) (scope : Scope) : Emit Emission := do
  ensure (a.types == b.types)
    (.signatureMismatch operation.describe "matching" a.types b.types)
  let name ← freshRelation
  let result : Predicate := ⟨name, a.columns, mergeParams a.params b.params⟩
  let vars ← freshVars a.columns
  let head := result.atomOf vars
  match operation with
  | .union =>
    let forLeft ← scope.ground result.params a.params
    let forRight ← scope.ground result.params b.params
    return .single result operation.describe
      [⟨head, .positive (a.atomOf vars) :: forLeft⟩, ⟨head, .positive (b.atomOf vars) :: forRight⟩]
  | .intersection =>
    return .single result operation.describe
      [⟨head, [.positive (a.atomOf vars), .positive (b.atomOf vars)]⟩]
  | .difference =>
    let grounding ← scope.ground result.params a.params
    return .single result operation.describe
      [⟨head, .positive (a.atomOf vars) :: .negated (b.atomOf vars) :: grounding⟩]

end RelQuery.Compile
