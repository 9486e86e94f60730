import Mathlib.Tactic
import RelQuery.Expr.Basic
import RelQuery.Schema.Scope

/-!
# The type system of the query language

An expression has a list of column types in a context, which says what names stand for.  The rules
are those of the operators: which column types an operator asks of its operands and which it gives.
The rules do not mention predicates, parameters or generated names, and there is none for the
reflexive transitive closure.

The wildcard has no rule of its own.  It stands for the dropped column of a join; elsewhere it is a
name like any other, and no context binds it unless a query or an input does.
-/

namespace RelQuery

/-- What names stand for, the innermost first. -/
abbrev Context := List (String × BindingKind)

def Constant.type : Constant → ColumnType
  | .number _ => .number
  | .text _ => .symbol

/-- `UnaryTyping op types result`: an operand of column types `types` gives `result`. -/
inductive UnaryTyping : UnaryOp → List ColumnType → List ColumnType → Prop where
  | quantify (quantifier : Quantifier) (types : List ColumnType) :
      UnaryTyping (.quantify quantifier) types []
  | count (types : List ColumnType) : UnaryTyping .count types [.number]
  | closure (type : ColumnType) : UnaryTyping .closure [type, type] [type, type]
  | transpose (source target : ColumnType) :
      UnaryTyping .transpose [source, target] [target, source]
  | aggregate (function : NumericAggregate) (init : List ColumnType) :
      UnaryTyping (.aggregate function) (init ++ [.number]) [.number]
  | wildcardApply (first : ColumnType) (rest : List ColumnType) :
      UnaryTyping .wildcardApply (first :: rest) rest
  | index (first : ColumnType) (rest : List ColumnType) :
      UnaryTyping .index (first :: rest) (.number :: first :: rest)
  | concat (init : List ColumnType) : UnaryTyping .concat (init ++ [.symbol]) [.symbol]

/-- `BinaryTyping op left right result`: operands of column types `left` and `right` give
`result`. -/
inductive BinaryTyping :
    BinaryOp → List ColumnType → List ColumnType → List ColumnType → Prop where
  | join (init rest : List ColumnType) (type : ColumnType) :
      BinaryTyping .join (init ++ [type]) (type :: rest) (init ++ rest)
  | product (left right : List ColumnType) : BinaryTyping .product left right (left ++ right)
  | apply (argument rest : List ColumnType) :
      BinaryTyping .apply (argument ++ rest) argument rest
  | domainRestrict (domain rest : List ColumnType) :
      BinaryTyping .domainRestrict domain (domain ++ rest) (domain ++ rest)
  | rangeRestrict (init range : List ColumnType) :
      BinaryTyping .rangeRestrict (init ++ range) range (init ++ range)
  | set (operation : SetOp) (types : List ColumnType) :
      BinaryTyping (.set operation) types types types
  | equality {comparison : Comparison} (hequality : comparison.isOrdering = false)
      (type : ColumnType) : BinaryTyping (.compare comparison) [type] [type] []
  | ordering {comparison : Comparison} (hordering : comparison.isOrdering = true) :
      BinaryTyping (.compare comparison) [.number] [.number] []
  | arith (operation : Arithmetic) :
      BinaryTyping (.arith operation) [.number] [.number] [.number]

/-- The columns of a comprehension over a constraint of column types `types`. -/
def Style.types (style : Style) (types body : List ColumnType) : List ColumnType :=
  match style with
  | .keep => types ++ body
  | .image => body

/-- The context of the body of a comprehension. -/
def Context.bindScalars (context : Context) (scalars : List String) (types : List ColumnType) :
    Context :=
  (scalars.zip (types.map .scalar)).reverse ++ context

/-- `HasType context e types`: in `context` the expression `e` has columns of types `types`. -/
inductive HasType : Context → Expr → List ColumnType → Prop where
  | relation {context : Context} {name : String} {types : List ColumnType}
      (hlookup : context.lookup name = some (.relation types)) (span : Span) :
      HasType context (.name name span) types
  | scalar {context : Context} {name : String} {type : ColumnType}
      (hlookup : context.lookup name = some (.scalar type)) (span : Span) :
      HasType context (.name name span) [type]
  | constant (context : Context) (value : Constant) (span : Span) :
      HasType context (.constant value span) [value.type]
  | formula (context : Context) (text : String) (span : Span) :
      HasType context (.formula text span) [.number]
  | unary {context : Context} {op : UnaryOp} {inner : Expr} {types result : List ColumnType}
      (hinner : HasType context inner types) (hop : UnaryTyping op types result) (span : Span) :
      HasType context (.unary op inner span) result
  | dropFirst {context : Context} {right : Expr} {first : ColumnType}
      {rest : List ColumnType} (hright : HasType context right (first :: rest))
      (wild span : Span) :
      HasType context (.binary .join (.name wildcard wild) right span) rest
  | dropLast {context : Context} {left : Expr} {last : ColumnType} {init : List ColumnType}
      (hleft : HasType context left (init ++ [last])) (wild span : Span) :
      HasType context (.binary .join left (.name wildcard wild) span) init
  | binary {context : Context} {op : BinaryOp} {left right : Expr}
      {types types' result : List ColumnType} (hleft : HasType context left types)
      (hright : HasType context right types') (hop : BinaryTyping op types types' result)
      (span : Span) : HasType context (.binary op left right span) result
  | letIn {context : Context} {name : String} {value body : Expr}
      {types result : List ColumnType} (hfree : context.lookup name = none)
      (hvalue : HasType context value types)
      (hbody : HasType ((name, .relation types) :: context) body result) (span : Span) :
      HasType context (.letIn name value body span) result
  | comprehension {context : Context} {scalars : List String} {constraint body : Expr}
      {types result : List ColumnType} (hnodup : scalars.Nodup)
      (hfree : ∀ x ∈ scalars, context.lookup x = none)
      (hconstraint : HasType context constraint types) (hlength : types.length = scalars.length)
      (hbody : HasType (context.bindScalars scalars types) body result) (style : Style)
      (span : Span) :
      HasType context (.comprehension style scalars constraint body span)
        (style.types types result)

/-- The names that an expression binds. -/
def Expr.binders : Expr → List String
  | .constant .. | .name .. | .formula .. => []
  | .unary _ operand _ => operand.binders
  | .binary _ left right _ => left.binders ++ right.binders
  | .comprehension _ names constraint body _ => names ++ (constraint.binders ++ body.binders)
  | .letIn bound value body _ => bound :: (value.binders ++ body.binders)

def inputContext (inputs : List (String × List ColumnType)) : Context :=
  (inputs.map fun input => (input.1, .relation input.2)).reverse

/-! ## Operators give one result -/

/-- The column types that an operator gives, whether it accepts its operand or not. -/
def UnaryOp.resultTypes (op : UnaryOp) (types : List ColumnType) : List ColumnType :=
  match op with
  | .quantify _ => []
  | .count | .aggregate _ => [.number]
  | .closure | .reflexiveClosure => types
  | .transpose => types.reverse
  | .wildcardApply => types.tail
  | .index => .number :: types
  | .concat => [.symbol]

def BinaryOp.resultTypes (op : BinaryOp) (left right : List ColumnType) : List ColumnType :=
  match op with
  | .join => left.dropLast ++ right.tail
  | .compare _ => []
  | .set _ | .rangeRestrict => left
  | .product => left ++ right
  | .apply => left.drop right.length
  | .domainRestrict => right
  | .arith _ => [.number]

theorem UnaryTyping.result_eq {op : UnaryOp} {types result : List ColumnType}
    (h : UnaryTyping op types result) : result = op.resultTypes types := by
  cases h <;> simp [UnaryOp.resultTypes]

theorem BinaryTyping.result_eq {op : BinaryOp} {left right result : List ColumnType}
    (h : BinaryTyping op left right result) : result = op.resultTypes left right := by
  cases h <;> simp [BinaryOp.resultTypes]

end RelQuery
