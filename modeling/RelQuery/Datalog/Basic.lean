import RelQuery.Scalar.Basic

/-!
# Datalog programs

A program is a list of commands: rules, declarations, requests for input and output, comments and
verbatim lines.  Commands may be grouped; a group stands for its commands in order.
-/

namespace RelQuery.Datalog

inductive Term where
  | var (name : String)
  | wildcard
  | number (value : Int)
  | symbol (value : String)
  deriving DecidableEq, Repr

inductive ArithOp where
  | add
  | sub
  | mul
  | div
  | mod
  deriving DecidableEq, Repr

/-- An expression for a scalar.  Raw text is opaque. -/
inductive ScalarExpr where
  | term (term : Term)
  | binary (op : ArithOp) (left right : ScalarExpr)
  | cat (parts : List ScalarExpr)
  | raw (text : String)
  deriving BEq, Repr

structure Atom where
  relation : String
  args : List Term
  deriving DecidableEq, Repr

/-- Functions on the values of a variable over all tuples that an atom matches. -/
inductive AggregateFunction where
  | count
  | sum
  | min
  | max
  deriving DecidableEq, Repr

/-- The aggregate of `target` over the tuples that match `atom`; counting has no target. -/
structure Aggregate where
  result : String
  function : AggregateFunction
  target : Option String
  atom : Atom
  deriving DecidableEq, Repr

inductive Literal where
  | positive (atom : Atom)
  | negated (atom : Atom)
  | aggregate (aggregate : Aggregate)
  | constraint (left : ScalarExpr) (op : Comparison) (right : ScalarExpr)
  deriving BEq, Repr

/-- A rule; one with an empty body is a fact. -/
structure Rule where
  head : Atom
  body : List Literal
  deriving BEq, Repr

structure Attribute where
  name : String
  type : ColumnType
  deriving DecidableEq, Repr

/-- A declaration.  Each choice domain lists attributes that determine the rest of a tuple. -/
structure Decl where
  relation : String
  attributes : List Attribute
  choiceDomains : List (List String)
  deriving DecidableEq, Repr

inductive Command where
  | rule (rule : Rule)
  | decl (decl : Decl)
  | input (relation : String)
  | output (relation : String)
  | comment (text : String)
  | raw (text : String)
  | group (commands : List Command)
  deriving BEq, Repr

structure Program where
  commands : List Command
  deriving BEq, Repr

namespace ArithOp

def symbol : ArithOp → String
  | add => "+"
  | sub => "-"
  | mul => "*"
  | div => "/"
  | mod => "%"

def ofSymbol? (symbol : String) : Option ArithOp :=
  [add, sub, mul, div, mod].find? (·.symbol == symbol)

end ArithOp

namespace AggregateFunction

def render : AggregateFunction → String
  | count => "count"
  | sum => "sum"
  | min => "min"
  | max => "max"

def ofName? (name : String) : Option AggregateFunction :=
  [count, sum, min, max].find? (·.render == name)

end AggregateFunction

def Atom.arity (atom : Atom) : Nat :=
  atom.args.length

namespace Literal

/-- The literal that gives a variable the value of an expression. -/
def assign (name : String) (value : ScalarExpr) : Literal :=
  .constraint (.term (.var name)) .eq value

def relation? : Literal → Option String
  | positive atom | negated atom => some atom.relation
  | aggregate a => some a.atom.relation
  | constraint .. => none

end Literal

namespace Rule

def isFact (rule : Rule) : Bool :=
  rule.body.isEmpty

/-- The relations that the body looks at, in order. -/
def bodyRelations (rule : Rule) : List String :=
  rule.body.filterMap Literal.relation?

/-- Whether the body looks at the relation of the head. -/
def isRecursive (rule : Rule) : Bool :=
  rule.bodyRelations.contains rule.head.relation

end Rule

def Command.blank : Command :=
  .raw ""

mutual

/-- The commands that a command stands for, with no group among them. -/
def Command.flatten : Command → List Command
  | .group commands => Command.flattenAll commands
  | .rule r => [.rule r]
  | .decl d => [.decl d]
  | .input relation => [.input relation]
  | .output relation => [.output relation]
  | .comment text => [.comment text]
  | .raw text => [.raw text]

/-- The commands that a list of commands stands for, with no group among them. -/
def Command.flattenAll : List Command → List Command
  | [] => []
  | command :: rest => command.flatten ++ Command.flattenAll rest

end

namespace Program

def append (first second : Program) : Program :=
  ⟨first.commands ++ second.commands⟩

def isEmpty (program : Program) : Bool :=
  program.commands.isEmpty

/-- All commands in order, with groups dissolved. -/
def flatten (program : Program) : List Command :=
  Command.flattenAll program.commands

def rules (program : Program) : List Rule :=
  program.flatten.filterMap fun
    | .rule rule => some rule
    | _ => none

def decls (program : Program) : List Decl :=
  program.flatten.filterMap fun
    | .decl decl => some decl
    | _ => none

end Program

end RelQuery.Datalog
