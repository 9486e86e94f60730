import RelQuery.Compile.Definition
import RelQuery.Text.Word

/-!
# Literals, formulas, comparisons and arithmetic

Scalars are relations of one column.  A comparison holds where it holds for some two values; a sum
or product is taken of every two values.  A formula is text for the engine, in which every name of a
scalar is replaced by the variable of that scalar.
-/

namespace RelQuery.Compile

open Datalog (Term Literal Rule)

def constantTerm : Constant → ColumnType × Term
  | .number value => (.number, .number value)
  | .text value => (.symbol, .symbol value)

def emitConstant (constant : Constant) : Emit Emission := do
  let (type, term) := constantTerm constant
  let name ← freshRelation
  let result : Predicate := ⟨name, [.named type "val"], []⟩
  let value ← freshVar "val"
  return .single result "literal" [⟨result.atomOf [value], [.assign value (.term term)]⟩]

/-- A name in a formula: the variable of a scalar in place of its name, any other name as it is. -/
def renameScalar (scope : Scope) (name : List Char) : List Char :=
  if (scope.scalar? (String.ofList name)).isSome then (paramVar (String.ofList name)).toList
  else name

def renameScalars (scope : Scope) (text : String) : String :=
  String.ofList (Text.replaceNames (renameScalar scope) none 0 text.toList)

/-- The relation of the value of a formula.  It depends on every scalar in scope, because the text
is not looked into. -/
def emitFormula (text : String) (scope : Scope) : Emit Emission := do
  let name ← freshRelation
  let result : Predicate := ⟨name, [.named .number "val"], scope.scalarNames⟩
  let value ← freshVar "val"
  let grounding ← scope.ground result.params []
  return .single result "formula"
    [⟨result.atomOf [value], grounding ++ [.assign value (.raw (renameScalars scope text))]⟩]

/-- The type of the only column of a relation. -/
def scalarType (subject : String) (a : Predicate) : Except Cause ColumnType :=
  match a.types with
  | [type] => .ok type
  | _ => .error (.arityMismatch subject (.exactly 1) a.arity)

def scalarTypes (a b : Predicate) : Except Cause (ColumnType × ColumnType) := do
  let left ← scalarType "Left-hand side of scalar operator" a
  let right ← scalarType "Right-hand side of scalar operator" b
  return (left, right)

/-- Holds where some value of `a` compares with some value of `b`. -/
def emitComparison (comparison : Comparison) (a b : Predicate) : Emit Emission := do
  let (left, right) ← scalarTypes a b
  ensureType "Right-hand side of comparison" left right
  ensure (!comparison.isOrdering || left == .number)
    (.typeMismatch "Operands of ordering comparison" .number left)
  let name ← freshRelation
  let result : Predicate := ⟨name, [], mergeParams a.params b.params⟩
  let lhs ← freshVar "lhs"
  let rhs ← freshVar "rhs"
  return .single result "comparison"
    [⟨result.atom [],
      [.positive (a.atomOf [lhs]), .positive (b.atomOf [rhs]),
        .constraint (.term (.var lhs)) comparison (.term (.var rhs))]⟩]

def arithOp : Arithmetic → Datalog.ArithOp
  | .add => .add
  | .mul => .mul

/-- The sum or product of every value of `a` and every value of `b`. -/
def emitArithmetic (operation : Arithmetic) (a b : Predicate) : Emit Emission := do
  let (left, right) ← scalarTypes a b
  ensureType "Left-hand side of arithmetic" .number left
  ensureType "Right-hand side of arithmetic" .number right
  let name ← freshRelation
  let result : Predicate := ⟨name, [.named .number "val"], mergeParams a.params b.params⟩
  let lhs ← freshVar "lhs"
  let rhs ← freshVar "rhs"
  let value ← freshVar "val"
  return .single result "arithmetic"
    [⟨result.atomOf [value],
      [.positive (a.atomOf [lhs]), .positive (b.atomOf [rhs]),
        .assign value (.binary (arithOp operation) (.term (.var lhs)) (.term (.var rhs)))]⟩]

end RelQuery.Compile
