import RelQuery.Expr.Operator
import RelQuery.Source.Basic

/-!
# Expressions of the query language

An expression is a tree whose nodes each carry the span of source text they were read from.  Two
expressions that differ in spans only have the same `strip`.
-/

namespace RelQuery

inductive Constant where
  | number (value : Int)
  | text (value : String)
  deriving DecidableEq, Repr

/-- What a comprehension yields: the bound variables followed by the body, or the body alone. -/
inductive Style where
  | keep
  | image
  deriving DecidableEq, Repr

def Style.tag : Style → String
  | .keep => "for"
  | .image => "from"

inductive Expr where
  | constant (value : Constant) (span : Span)
  | name (name : String) (span : Span)
  | formula (text : String) (span : Span)
  | unary (op : UnaryOp) (operand : Expr) (span : Span)
  | binary (op : BinaryOp) (left right : Expr) (span : Span)
  | comprehension (style : Style) (names : List String) (constraint body : Expr) (span : Span)
  | letIn (bound : String) (value body : Expr) (span : Span)
  deriving DecidableEq, Repr

/-- The name that stands for an ignored column. -/
def wildcard : String := "_"

namespace Expr

/-- The source text that a node was read from. -/
def span : Expr → Span
  | constant _ span | name _ span | formula _ span | unary _ _ span | binary _ _ _ span
  | comprehension _ _ _ _ span | letIn _ _ _ span => span

def text (e : Expr) : String :=
  e.span.text

/-- The kind of a node, as messages name it. -/
def kind : Expr → String
  | constant .. => "constant"
  | name .. => "identifier"
  | formula .. => "formula"
  | unary .. => "unary"
  | binary .. => "binary"
  | comprehension .. => "comprehension"
  | letIn .. => "let"

/-- Whether an expression is the bare name `_`. -/
def isWildcard : Expr → Bool
  | name n _ => n == wildcard
  | _ => false

def size : Expr → Nat
  | constant .. | name .. | formula .. => 1
  | unary _ operand _ => 1 + operand.size
  | binary _ left right _ => 1 + (left.size + right.size)
  | comprehension _ _ constraint body _ => 1 + (constraint.size + body.size)
  | letIn _ value body _ => 1 + (value.size + body.size)

/-- Every node, a parent before its children and the children in source order. -/
def nodes : Expr → List Expr
  | e@(constant ..) | e@(name ..) | e@(formula ..) => [e]
  | e@(unary _ operand _) => e :: operand.nodes
  | e@(binary _ left right _) => e :: (left.nodes ++ right.nodes)
  | e@(comprehension _ _ constraint body _) => e :: (constraint.nodes ++ body.nodes)
  | e@(letIn _ value body _) => e :: (value.nodes ++ body.nodes)

/-- The same tree with no memory of where it was read from. -/
def strip : Expr → Expr
  | constant value _ => constant value .synthetic
  | name n _ => name n .synthetic
  | formula text _ => formula text .synthetic
  | unary op operand _ => unary op operand.strip .synthetic
  | binary op left right _ => binary op left.strip right.strip .synthetic
  | comprehension style names constraint body _ =>
    comprehension style names constraint.strip body.strip .synthetic
  | letIn bound value body _ => letIn bound value.strip body.strip .synthetic

end Expr

end RelQuery
