import RelQuery.Compile.Definition

/-!
# Counts and numeric aggregates

An aggregate is taken over all tuples of a relation, once for every value of its parameters.
-/

namespace RelQuery.Compile

open Datalog (Term Literal Rule)

def aggregateFunction : NumericAggregate → Datalog.AggregateFunction
  | .min => .min
  | .max => .max
  | .sum => .sum

/-- The number of tuples. -/
def emitCount (a : Predicate) (scope : Scope) : Emit Emission := do
  let name ← freshRelation
  let result : Predicate := ⟨name, [.named .number "cnt"], a.params⟩
  let count ← freshVar "cnt"
  let grounding ← scope.ground a.params []
  return .single result "count"
    [⟨result.atomOf [count], .aggregate ⟨count, .count, none, a.wildcardAtom⟩ :: grounding⟩]

/-- The least, the greatest or the sum of the values in the last column. -/
def emitAggregate (function : NumericAggregate) (a : Predicate) (scope : Scope) :
    Emit Emission := do
  let label := function.symbol
  match a.lastType? with
  | none => throw (.arityMismatch ("Operand of " ++ label) .positive 0)
  | some last => ensureType ("Last column of " ++ label ++ " operand") .number last
  let name ← freshRelation
  let result : Predicate := ⟨name, [.named .number label], a.params⟩
  let value ← freshVar label
  let each ← freshVar "val"
  let atom := a.atom (a.wildcards.dropLast ++ [.var each])
  let grounding ← scope.ground a.params []
  return .single result label
    [⟨result.atomOf [value],
      .aggregate ⟨value, aggregateFunction function, some each, atom⟩ :: grounding⟩]

end RelQuery.Compile
