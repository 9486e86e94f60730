import RelQuery.Compile.Definition

/-!
# Relations of two columns

The transitive closure of a relation and the relation with its two columns swapped.
-/

namespace RelQuery.Compile

open Datalog (Term Literal Rule)

/-- The least transitive relation that holds all tuples of `a`. -/
def emitClosure (a : Predicate) : Emit Emission := do
  ensureArity "Transitive closure" 2 a
  match a.types with
  | [source, target] => ensureType "Second column of transitive closure" source target
  | _ => pure ()
  let name ← freshRelation
  let result : Predicate := ⟨name, a.columns, a.params⟩
  let vars ← freshVars a.columns
  let middle ← freshVar "mid"
  return .single result "transitive closure"
    [⟨result.atomOf vars, [.positive (a.atomOf vars)]⟩,
      ⟨result.atomOf vars,
        [.positive (result.atomOf (vars.dropLast ++ [middle])),
          .positive (a.atomOf (middle :: vars.tail))]⟩]

/-- The tuples of `a` with their two columns swapped. -/
def emitTranspose (a : Predicate) : Emit Emission := do
  ensureArity "Transpose" 2 a
  let name ← freshRelation
  let result : Predicate := ⟨name, a.columns.reverse, a.params⟩
  let vars ← freshVars a.columns
  return .single result "transpose" [⟨result.atomOf vars.reverse, [.positive (a.atomOf vars)]⟩]

end RelQuery.Compile
