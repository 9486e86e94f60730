import RelQuery.Expr.Basic
import RelQuery.Text.Quoted

/-!
# Rendered expressions

An expression is rendered with its operator first and every operand in its own parentheses, so the
text shows the tree and nothing of the layout it was read from.
-/

namespace RelQuery

/-- A number in decimal, a text between quotes. -/
def Constant.render : Constant → String
  | .number value => toString value
  | .text value => Text.quoteString value

namespace Expr

/-- The tree as text, operators first. -/
def render : Expr → String
  | constant value _ => value.render
  | name n _ => n
  | formula text _ => "`" ++ text ++ "`"
  | unary op operand _ => "(" ++ op.symbol ++ " " ++ operand.render ++ ")"
  | binary op left right _ =>
    "(" ++ op.symbol ++ " " ++ left.render ++ " " ++ right.render ++ ")"
  | comprehension style names constraint body _ =>
    "(" ++ style.tag ++ " (" ++ " ".intercalate names ++ ") " ++ constraint.render ++ " "
      ++ body.render ++ ")"
  | letIn bound value body _ =>
    "(let " ++ bound ++ " " ++ value.render ++ " " ++ body.render ++ ")"

/-- What tells a node from others of its kind, its children apart. -/
def label : Expr → String
  | constant value _ => value.render
  | name n _ => n
  | formula text _ => text
  | unary op _ _ => op.symbol
  | binary op _ _ _ => op.symbol
  | comprehension style names _ _ _ => style.tag ++ " " ++ " ".intercalate names
  | letIn bound _ _ _ => bound

end Expr

end RelQuery
