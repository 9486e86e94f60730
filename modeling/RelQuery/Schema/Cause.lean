import RelQuery.Scalar.Basic
import RelQuery.Schema.Predicate

/-!
# Causes of failure

What makes an expression meaningless in a scope, apart from where it stands.
-/

namespace RelQuery

inductive ArityDemand where
  | exactly (columns : Nat)
  | positive
  deriving DecidableEq, Repr

def ArityDemand.render : ArityDemand → String
  | exactly columns => toString columns
  | positive => "> 0"

/-- Why an expression has no meaning in a scope.  The last two say that a predicate depends on a
name that is no scalar of the scope. -/
inductive Cause where
  | unknownIdentifier (name : String)
  | alreadyBound (name : String)
  | arityMismatch (subject : String) (expected : ArityDemand) (found : Nat)
  | typeMismatch (subject : String) (expected found : ColumnType)
  | signatureMismatch (operator relationship : String) (left right : List ColumnType)
  | misplacedWildcard
  | unsupported (feature : String)
  | ungrounded (name : String)
  | unscoped (param relation : String)
  deriving DecidableEq, Repr

def Cause.message : Cause → String
  | unknownIdentifier name => "Unknown identifier: " ++ name
  | alreadyBound name => "Variable " ++ name ++ " already in scope"
  | arityMismatch subject expected found =>
    subject ++ " must have arity " ++ expected.render ++ ", but has arity " ++ toString found
  | typeMismatch subject expected found =>
    subject ++ " must have type " ++ expected.render ++ ", but has type " ++ found.render
  | signatureMismatch operator relationship left right =>
    "Relations in " ++ operator ++ " must have " ++ relationship ++ " signatures, but got "
      ++ renderSignature left ++ " and " ++ renderSignature right
  | misplacedWildcard => "Wildcard _ is only allowed as an operand of a dot-join"
  | unsupported feature => feature ++ " is not supported"
  | ungrounded name => "Internal error: cannot ground " ++ name ++ ": not a scalar in scope"
  | unscoped param relation =>
    "Internal error: external slot " ++ param ++ " of " ++ relation ++ " is not a scalar in scope"

end RelQuery
