import RelQuery.Scalar.Basic

/-!
# Operators of the query language

Operators are grouped by what they do: quantifiers, numeric aggregates, comparisons, set operators
and arithmetic.  Each operator has a symbol, which stands in a rendered expression, and a
description, which stands in messages and in the comments of a program.
-/

namespace RelQuery

/-- Tests whether a relation has a tuple. -/
inductive Quantifier where
  | some
  | no
  deriving DecidableEq, Repr

inductive NumericAggregate where
  | min
  | max
  | sum
  deriving DecidableEq, Repr

/-- Operators on two relations of the same column types. -/
inductive SetOp where
  | union
  | intersection
  | difference
  deriving DecidableEq, Repr

inductive Arithmetic where
  | add
  | mul
  deriving DecidableEq, Repr

inductive UnaryOp where
  | quantify (quantifier : Quantifier)
  | count
  | closure
  | reflexiveClosure
  | transpose
  | aggregate (function : NumericAggregate)
  | wildcardApply
  | index
  | concat
  deriving DecidableEq, Repr

inductive BinaryOp where
  | join
  | compare (comparison : Comparison)
  | set (operation : SetOp)
  | product
  | apply
  | domainRestrict
  | rangeRestrict
  | arith (operation : Arithmetic)
  deriving DecidableEq, Repr

def Quantifier.symbol : Quantifier → String
  | .some => "some"
  | .no => "not"

def NumericAggregate.symbol : NumericAggregate → String
  | .min => "min"
  | .max => "max"
  | .sum => "sum"

def SetOp.symbol : SetOp → String
  | .union => ";"
  | .intersection => "&"
  | .difference => "-"

def SetOp.describe : SetOp → String
  | .union => "union"
  | .intersection => "intersection"
  | .difference => "difference"

def Arithmetic.symbol : Arithmetic → String
  | .add => "+"
  | .mul => "*"

namespace UnaryOp

def symbol : UnaryOp → String
  | .quantify quantifier => quantifier.symbol
  | .count => "#"
  | .closure => "^"
  | .reflexiveClosure => "*"
  | .transpose => "~"
  | .aggregate function => function.symbol
  | .wildcardApply => "[_]"
  | .index => "index"
  | .concat => "concat"

def describe : UnaryOp → String
  | .quantify quantifier => quantifier.symbol
  | .count => "count"
  | .closure => "transitive closure"
  | .reflexiveClosure => "reflexive transitive closure"
  | .transpose => "transpose"
  | .aggregate function => function.symbol
  | .wildcardApply => "wildcard application"
  | .index => "index"
  | .concat => "concat"

def all : List UnaryOp :=
  [.quantify .some, .quantify .no, .count, .closure, .reflexiveClosure, .transpose,
    .aggregate .min, .aggregate .max, .aggregate .sum, .wildcardApply, .index, .concat]

def ofSymbol? (symbol : String) : Option UnaryOp :=
  all.find? (·.symbol == symbol)

end UnaryOp

namespace BinaryOp

def symbol : BinaryOp → String
  | .join => "."
  | .compare comparison => comparison.symbol
  | .set operation => operation.symbol
  | .product => ","
  | .apply => "[]"
  | .domainRestrict => "<:"
  | .rangeRestrict => ":>"
  | .arith operation => operation.symbol

def describe : BinaryOp → String
  | .join => "dot-join"
  | .compare _ => "comparison"
  | .set operation => operation.describe
  | .product => "cartesian product"
  | .apply => "application"
  | .domainRestrict => "prefix join"
  | .rangeRestrict => "suffix join"
  | .arith _ => "arithmetic"

def isComparison : BinaryOp → Bool
  | .compare _ => true
  | _ => false

def isArithmetic : BinaryOp → Bool
  | .arith _ => true
  | _ => false

def all : List BinaryOp :=
  [.join, .compare .eq, .compare .ne, .compare .lt, .compare .gt, .compare .le, .compare .ge,
    .set .union, .set .intersection, .set .difference, .product, .apply, .domainRestrict,
    .rangeRestrict, .arith .add, .arith .mul]

def ofSymbol? (symbol : String) : Option BinaryOp :=
  all.find? (·.symbol == symbol)

end BinaryOp

end RelQuery
