import RelQuery.Datalog.Basic
import RelQuery.Text.Basic

/-!
# Variables and safety of rules

A rule is safe when every variable of its head, of its negated atoms and of its constraints is
bound.  Positive atoms bind their variables and an aggregate binds its result.  An equality with a
variable alone on one side binds that variable once every variable of the other side is bound.
-/

namespace RelQuery.Datalog

def Term.var? : Term → Option String
  | var name => some name
  | _ => none

mutual

def ScalarExpr.vars : ScalarExpr → List String
  | .term t => t.var?.toList
  | .binary _ left right => left.vars ++ right.vars
  | .cat parts => ScalarExpr.varsAll parts
  | .raw _ => []

def ScalarExpr.varsAll : List ScalarExpr → List String
  | [] => []
  | part :: rest => part.vars ++ ScalarExpr.varsAll rest

end

def Atom.vars (atom : Atom) : List String :=
  atom.args.filterMap Term.var?

namespace Literal

/-- The variables that a literal binds by itself. -/
def binds : Literal → List String
  | positive atom => atom.vars
  | aggregate a => [a.result]
  | negated _ | constraint .. => []

/-- The variables that have to be bound for a literal. -/
def needs : Literal → List String
  | negated atom => atom.vars
  | constraint left _ right => left.vars ++ right.vars
  | positive _ | aggregate _ => []

/-- The variable that an expression is, with the variables of `source`. -/
def assignment? (target source : ScalarExpr) : Option (String × List String) :=
  match target with
  | .term (.var name) => some (name, source.vars)
  | _ => none

/-- The variables that a literal binds once other variables are bound. -/
def assignments : Literal → List (String × List String)
  | constraint left .eq right =>
    (assignment? left right).toList ++ (assignment? right left).toList
  | _ => []

end Literal

/-- Adds the target of an assignment whose sources are all bound. -/
def absorb (bound : List String) (assignment : String × List String) : List String :=
  if !bound.contains assignment.1 && assignment.2.all bound.contains then assignment.1 :: bound
  else bound

/-- Goes `rounds` times through the assignments. -/
def saturate (assignments : List (String × List String)) : Nat → List String → List String
  | 0, bound => bound
  | rounds + 1, bound => saturate assignments rounds (assignments.foldl absorb bound)

namespace Rule

/-- The assignments among the constraints of the body. -/
def assignments (rule : Rule) : List (String × List String) :=
  rule.body.flatMap Literal.assignments

/-- The bound variables.  A round that binds no new variable changes nothing, and every other round
uses up an assignment, so there are enough rounds. -/
def bound (rule : Rule) : List String :=
  saturate rule.assignments rule.assignments.length (rule.body.flatMap Literal.binds)

def needed (rule : Rule) : List String :=
  rule.head.vars ++ rule.body.flatMap Literal.needs

def unbound (rule : Rule) : List String :=
  Text.sortNames (rule.needed.filter fun name => !rule.bound.contains name)

/-- Whether every variable that has to be bound is bound. -/
def isSafe (rule : Rule) : Bool :=
  rule.unbound.isEmpty

end Rule

end RelQuery.Datalog
