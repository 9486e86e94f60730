import RelQuery.Expr.Basic
import RelQuery.Grammar.Query
import RelQuery.Text.Basic

/-!
# Expressions from pairs

The pairs that a source leaves are put together to an expression.  Operators of a binary band combine
from the left.  Each step asks for the pairs that its rule should have left, in the order in which
they should stand, and fails where one is missing or is of no use there.

A node of a prefix operator or a binding has the span of its pair.  A node of a binary operator
reaches from the start of its left operand to the end of its right one, a node of a chain to the end
of its last link.
-/

namespace RelQuery.Grammar

/-- Why no expression comes out of the pairs. -/
inductive Fault where
  /-- There is no pair at all. -/
  | nothing
  /-- The pair of the query has no expression inside. -/
  | noExpression
  /-- A pair has fewer parts than its rule leaves. -/
  | missing (parent : Rule)
  /-- A pair that is no expression stands for one. -/
  | misplaced
  | operator
  | letBinding
  | comprehension
  | comparisonOperator
  | aggregate
  | join
  | closureOperator
  /-- A number does not fit in 32 bits. -/
  | number
  deriving DecidableEq, Repr

def Fault.expected : Fault → String
  | .nothing | .noExpression | .misplaced => "expression"
  | .missing parent => parent.expectation.describe
  | .operator => "operator"
  | .letBinding => "let binding"
  | .comprehension => "comprehension"
  | .comparisonOperator => "comparison operator"
  | .aggregate => "aggregate"
  | .join => "join"
  | .closureOperator => "closure operator"
  | .number => "number that fits in 32 bits"

/-- A fault with the offsets of the piece of source that it is about. -/
structure Malformed where
  start : Nat
  stop : Nat
  fault : Fault
  deriving DecidableEq, Repr

abbrev Built : Type → Type :=
  Except Malformed

namespace Pair

def malformed (pair : Pair) (fault : Fault) : Malformed :=
  ⟨pair.start, pair.stop, fault⟩

mutual

/-- The number of pairs on the longest way to a pair without parts. -/
def depth : Pair → Nat
  | mk _ _ _ inner => depthOf inner + 1

def depthOf : List Pair → Nat
  | [] => 0
  | pair :: pairs => max pair.depth (depthOf pairs)

end

end Pair

/-- The first of the pairs to come and those behind it. -/
def next (failure : Malformed) : List Pair → Built (Pair × List Pair)
  | [] => .error failure
  | pair :: pairs => .ok (pair, pairs)

def nextOf (parent : Pair) : List Pair → Built (Pair × List Pair) :=
  next (parent.malformed (.missing parent.rule))

/-- A node of a binary operator, from the start of the left operand to the end of the right one. -/
def combine (source : String) (left : Expr) (next : BinaryOp × Expr) : Expr :=
  .binary next.1 left next.2 ⟨source, left.span.start, next.2.span.stop⟩

/-- A name between angle brackets drops the first column of what it names; the wildcard stands for
itself. -/
def propertyOf (named : Expr) (span : Span) : Expr :=
  if named.isWildcard then .name wildcard span else .unary .wildcardApply named span

/-! ## Operators -/

section Operators

variable (source : String)

def setOpOf (pair : Pair) : BinaryOp :=
  if Text.trim (pair.text source) = "&" then .set .intersection else .set .difference

def quantifyOf (pair : Pair) : Built UnaryOp :=
  if Text.trim (pair.text source) = "some" then .ok (.quantify .some) else .ok (.quantify .no)

def compareOf (pair : Pair) : Built Comparison :=
  match pair.text source with
  | "=" => .ok .eq
  | "!=" => .ok .ne
  | "<" => .ok .lt
  | ">" => .ok .gt
  | "<=" | "=<" => .ok .le
  | ">=" => .ok .ge
  | _ => .error (pair.malformed .comparisonOperator)

def aggregateOf (pair : Pair) : Built UnaryOp :=
  match pair.text source with
  | "#" => .ok .count
  | "min" => .ok (.aggregate .min)
  | "max" => .ok (.aggregate .max)
  | "sum" | "Σ" => .ok (.aggregate .sum)
  | "index" => .ok .index
  | "concat" => .ok .concat
  | _ => .error (pair.malformed .aggregate)

def closureOf (pair : Pair) : Built UnaryOp :=
  match pair.text source with
  | "^" => .ok .closure
  | "*" => .ok .reflexiveClosure
  | "~" => .ok .transpose
  | _ => .error (pair.malformed .closureOperator)

def joinOf (link : Pair) : Built BinaryOp :=
  match link.rule with
  | .dotJoin => .ok .join
  | .application => .ok .apply
  | .domainRestriction => .ok .domainRestrict
  | .rangeRestriction => .ok .rangeRestrict
  | _ => .error (link.malformed .join)

end Operators

/-! ## Nodes -/

section Nodes

variable (source : String) (build : Pair → Built Expr)

/-- Combines what was built with the operands to come.  Where no operator is fixed for the band, each
operand stands behind the pair of its operator. -/
def foldFrom (pair : Pair) (fixed : Option BinaryOp) : Expr → List Pair → Built Expr
  | left, [] => .ok left
  | left, first :: rest =>
    if first.rule = .setOperator then
      match rest with
      | [] => .error (pair.malformed (.missing pair.rule))
      | operand :: rest => do
        let right ← build operand
        foldFrom pair fixed (combine source left (setOpOf source first, right)) rest
    else
      match fixed with
      | none => .error (first.malformed .operator)
      | some op => do
        let right ← build first
        foldFrom pair fixed (combine source left (op, right)) rest

def foldLeft (pair : Pair) (fixed : Option BinaryOp) : Built Expr := do
  let (first, rest) ← nextOf pair pair.inner
  let left ← build first
  foldFrom source build pair fixed left rest

def buildLet (pair : Pair) : Built Expr := do
  let missing := pair.malformed .letBinding
  let (name, rest) ← next missing (pair.inner.filter (·.rule ≠ .keyword .binding))
  let (value, rest) ← next missing rest
  let value ← build value
  let (body, _) ← next missing rest
  let body ← build body
  return .letIn (name.text source) value body (pair.span source)

def buildComprehension (pair : Pair) : Built Expr := do
  let missing := pair.malformed .comprehension
  let (names, rest) ← next missing (pair.inner.filter (·.rule ≠ .colon))
  let (constraint, rest) ← next missing rest
  let constraint ← build constraint
  let (tail, _) ← next missing rest
  let style := if tail.rule = .imageBody then Style.image else .keep
  let (body, _) ← next missing tail.inner
  let body ← build body
  return .comprehension style (names.inner.map (·.text source)) constraint body (pair.span source)

/-- Builds an operand, with the operator before it if there is one. -/
def buildPrefixed (operator : Rule) (operatorOf : Pair → Built UnaryOp) (pair : Pair) :
    Built Expr := do
  let (first, rest) ← nextOf pair pair.inner
  if first.rule ≠ operator then build first
  else
    let op ← operatorOf first
    let (operand, _) ← nextOf pair rest
    let operand ← build operand
    return .unary op operand (pair.span source)

def buildComparison (pair : Pair) : Built Expr := do
  let (left, rest) ← nextOf pair pair.inner
  let left ← build left
  match rest with
  | [] => return left
  | operator :: rest =>
    let comparison ← compareOf source operator
    let (right, _) ← nextOf pair rest
    let right ← build right
    return combine source left (.compare comparison, right)

/-- Adds one link to what was built of a chain. -/
def buildLink (left : Expr) (link : Pair) : Built Expr :=
  let span : Span := ⟨source, left.span.start, link.stop⟩
  if link.rule = .wildcardApply then .ok (.unary .wildcardApply left span)
  else do
    let op ← joinOf link
    let (right, _) ← nextOf link link.inner
    let right ← build right
    return .binary op left right span

def buildChain (pair : Pair) : Built Expr := do
  let (first, links) ← nextOf pair pair.inner
  let first ← build first
  links.foldlM (buildLink source build) first

def buildNumber (pair : Pair) : Built Expr :=
  match Text.readSigned? 32 (pair.text source).toList with
  | some value => .ok (.constant (.number value) (pair.span source))
  | none => .error (pair.malformed .number)

def bodyText (pair : Pair) : String :=
  (pair.inner.head?.map (·.text source)).getD ""

def buildString (pair : Pair) : Expr :=
  .constant (.text (String.ofList (unescape (bodyText source pair).toList))) (pair.span source)

/-- Blanks at the ends of a formula do not belong to it. -/
def buildFormula (pair : Pair) : Expr :=
  .formula (Text.trim (bodyText source pair)) (pair.span source)

def buildName (pair : Pair) : Expr :=
  .name (pair.text source) (pair.span source)

def buildProperty (pair : Pair) : Built Expr := do
  let (name, _) ← nextOf pair pair.inner
  return propertyOf (buildName source name) (pair.span source)

/-- Builds a pair, where `build` builds the pairs inside it. -/
def buildNode (pair : Pair) : Built Expr :=
  match pair.rule with
  | .expression | .intersection => foldLeft source build pair none
  | .union => foldLeft source build pair (some (.set .union))
  | .product => foldLeft source build pair (some .product)
  | .addition => foldLeft source build pair (some (.arith .add))
  | .multiplication => foldLeft source build pair (some (.arith .mul))
  | .letBinding => buildLet source build pair
  | .comprehension => buildComprehension source build pair
  | .quantified => buildPrefixed source build .quantifier (quantifyOf source) pair
  | .comparison => buildComparison source build pair
  | .aggregate => buildPrefixed source build .aggregateOperator (aggregateOf source) pair
  | .chain => buildChain source build pair
  | .tight => buildPrefixed source build .tightOperator (closureOf source) pair
  | .number => buildNumber source pair
  | .string => .ok (buildString source pair)
  | .formula => .ok (buildFormula source pair)
  | .property => buildProperty source pair
  | .identifier => .ok (buildName source pair)
  | _ => .error (pair.malformed .misplaced)

end Nodes

/-- Builds a pair that is at most as deep as the bound says. -/
def buildWithin (source : String) : Nat → Pair → Built Expr
  | 0, pair => .error (pair.malformed .misplaced)
  | depth + 1, pair => buildNode source (buildWithin source depth) pair

def build (source : String) (pair : Pair) : Built Expr :=
  buildWithin source pair.depth pair

/-- Builds the expression inside the pair of the query. -/
def buildQuery (source : String) (pairs : List Pair) : Built Expr := do
  let (query, _) ← next ⟨0, 0, .nothing⟩ pairs
  match query.inner.find? (·.rule = .expression) with
  | none => .error ⟨0, source.utf8ByteSize, .noExpression⟩
  | some e => build source e

end RelQuery.Grammar
