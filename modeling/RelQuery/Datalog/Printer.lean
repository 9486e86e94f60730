import RelQuery.Datalog.Basic

/-!
# The text of a program

Every command but a group takes one line.  Scalar expressions are printed with all their
parentheses, so that the text shows the tree.
-/

namespace RelQuery.Datalog

/-- A character of a symbol as it stands between double quotes. -/
def escapeSymbolChar (c : Char) : List Char :=
  if c = '"' then ['\\', '"']
  else if c = '\\' then ['\\', '\\']
  else if c = '\n' then ['\\', 'n']
  else if c = '\t' then ['\\', 't']
  else if c = '\r' then ['\\', 'r']
  else [c]

def renderSymbol (value : String) : String :=
  String.ofList ('"' :: value.toList.flatMap escapeSymbolChar ++ ['"'])

def commaSeparated (items : List String) : String :=
  ", ".intercalate items

def Term.render : Term → String
  | var name => name
  | wildcard => "_"
  | number value => toString value
  | symbol value => renderSymbol value

mutual

def ScalarExpr.render : ScalarExpr → String
  | .term t => t.render
  | .binary op left right => "(" ++ left.render ++ " " ++ op.symbol ++ " " ++ right.render ++ ")"
  | .cat parts => "cat(" ++ commaSeparated (ScalarExpr.renderAll parts) ++ ")"
  | .raw text => "(" ++ text ++ ")"

def ScalarExpr.renderAll : List ScalarExpr → List String
  | [] => []
  | part :: rest => part.render :: ScalarExpr.renderAll rest

end

def Atom.render (atom : Atom) : String :=
  atom.relation ++ "(" ++ commaSeparated (atom.args.map Term.render) ++ ")"

def Aggregate.renderTarget (aggregate : Aggregate) : String :=
  match aggregate.target with
  | some target => " " ++ target
  | none => ""

def Aggregate.render (aggregate : Aggregate) : String :=
  aggregate.result ++ " = " ++ aggregate.function.render ++ aggregate.renderTarget ++ " : \x7b "
    ++ aggregate.atom.render ++ " \x7d"

def Literal.render : Literal → String
  | positive atom => atom.render
  | negated atom => "!" ++ atom.render
  | aggregate a => a.render
  | constraint left op right => left.render ++ " " ++ op.symbol ++ " " ++ right.render

def Rule.render (rule : Rule) : String :=
  if rule.body.isEmpty then rule.head.render ++ "."
  else rule.head.render ++ " :- " ++ commaSeparated (rule.body.map Literal.render) ++ "."

def Attribute.render (column : Attribute) : String :=
  column.name ++ ": " ++ column.type.render

/-- A choice domain; one attribute alone needs no parentheses. -/
def renderChoiceDomain : List String → String
  | [single] => single
  | names => "(" ++ commaSeparated names ++ ")"

def Decl.render (decl : Decl) : String :=
  ".decl " ++ decl.relation ++ "(" ++ commaSeparated (decl.attributes.map Attribute.render) ++ ")"
    ++ if decl.choiceDomains.isEmpty then ""
      else " choice-domain " ++ commaSeparated (decl.choiceDomains.map renderChoiceDomain)

/-- A text with a blank in place of every line break. -/
def onOneLine (text : String) : String :=
  text.map fun c => if c = '\n' then ' ' else c

def lines (items : List String) : String :=
  "\n".intercalate items

mutual

/-- The text of a command; a group has the texts of its commands on lines of their own. -/
def Command.render : Command → String
  | .rule r => r.render
  | .decl d => d.render
  | .input relation => ".input " ++ relation
  | .output relation => ".output " ++ relation
  | .comment text => "// " ++ onOneLine text
  | .raw text => text
  | .group commands => lines (Command.renderAll commands)

def Command.renderAll : List Command → List String
  | [] => []
  | command :: rest => command.render :: Command.renderAll rest

end

/-- The text of a program, with groups dissolved. -/
def Program.render (program : Program) : String :=
  lines (program.flatten.map Command.render)

end RelQuery.Datalog
