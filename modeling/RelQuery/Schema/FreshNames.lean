import RelQuery.Schema.Scope

/-!
# Fresh names

Generated relations are named `R1`, `R2`, and so on, without the names that are reserved.  A
generated variable is a stem with a number that no other variable has.
-/

namespace RelQuery

/-- The numbers used so far and the names that may not be given to relations. -/
structure FreshNames where
  relationCount : Nat
  varCount : Nat
  reserved : List String
  deriving DecidableEq, Repr

namespace FreshNames

/-- Nothing used yet. -/
def avoiding (reserved : List String) : FreshNames :=
  ⟨0, 0, reserved⟩

/-- Nothing used yet; all names of relations in scope are reserved. -/
def inScope (scope : Scope) : FreshNames :=
  avoiding (scope.relations.flatMap fun entry => [entry.1, entry.2.name])

def relationName (number : Nat) : String :=
  "R" ++ toString number

/-- The first number from `start` on whose relation name is not reserved.  Among one more candidates
than there are reserved names, at least one is free. -/
def firstFree (reserved : List String) (start : Nat) : Nat :=
  (((List.range (reserved.length + 1)).map (start + ·)).find? fun number =>
    !reserved.contains (relationName number)).getD start

def relation (names : FreshNames) : String × FreshNames :=
  let number := firstFree names.reserved (names.relationCount + 1)
  (relationName number, { names with relationCount := number })

def varName (stem : String) (number : Nat) : String :=
  stem ++ "_" ++ toString number

def var (names : FreshNames) (stem : String) : String × FreshNames :=
  (varName stem (names.varCount + 1), { names with varCount := names.varCount + 1 })

def vars (names : FreshNames) (stems : List String) : List String × FreshNames :=
  (stems.mapIdx fun k stem => varName stem (names.varCount + 1 + k),
    { names with varCount := names.varCount + stems.length })

end FreshNames

end RelQuery
