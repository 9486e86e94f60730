import RelQuery.Expr.Parse

/-!
# Reading without pairs

The rules of the grammar with the expression that each of them gives.  A rule makes its expression
from those of its parts at once, and no pairs are left.  A number is read whatever its size; whether
all numbers fit is asked of the whole expression.
-/

namespace RelQuery

/-- Whether a node is a number that does not fit in 32 bits. -/
def Expr.isOversized : Expr → Bool
  | constant (.number value) _ => !Text.fitsSigned 32 value
  | _ => false

end RelQuery

namespace RelQuery.Grammar

namespace Parser

def lexeme (expectation : Expectation) (scan : List Char → Option (List Char × List Char)) :
    Parser (List Char) :=
  rule expectation (scanning scan)

def ident : Parser String :=
  (lexeme .identifier scanName).andThen fun cs => succeed (String.ofList cs)

def keyword (word : Keyword) : Parser Unit :=
  (lexeme word.expectation (scanKeyword word)).andThen fun _ => succeed ()

def endOfInput : Parser Unit :=
  rule .endOfInput fun cursor => if cursor.rest.isEmpty then succeed () cursor else fail cursor

end Parser

open RelQuery.Grammar.Parser

/-- Reads operands with an operator between any two, and combines them from the left. -/
def binaryBand (source : String) (operator : Parser BinaryOp) (operand : Parser Expr) :
    Parser Expr :=
  rule .expression do
    let first ← operand
    let rest ← items do
      let op ← operator
      layout
      let right ← operand
      return (op, right)
    return rest.foldl (combine source) first

/-- Reads any number of prefix operators before an operand.  Each takes at least one character, so
`fuel` of one more than the number of characters to come is enough. -/
def prefixBand (source : String) (operator : Parser UnaryOp) (operand : Parser Expr) :
    Nat → Parser Expr
  | 0 => fail
  | fuel + 1 =>
    rule .expression do
      let start ← here
      (do
        let op ← operator
        layout
        let inner ← prefixBand source operator operand fuel
        let stop ← here
        return .unary op inner ⟨source, start, stop⟩) <|> operand

/-- A prefix band with as much fuel as the place where it is read needs. -/
def prefixed (source : String) (operator : Parser UnaryOp) (operand : Parser Expr) :
    Parser Expr := fun cursor =>
  prefixBand source operator operand (cursor.rest.length + 1) cursor

def number (source : String) : Parser Expr := do
  let start ← here
  let digits ← lexeme .number scanNumber
  let stop ← here
  return .constant (.number (Text.digitsValue digits)) ⟨source, start, stop⟩

/-- The characters between the first and the last one. -/
def enclosed (cs : List Char) : List Char :=
  cs.tail.dropLast

def string (source : String) : Parser Expr := do
  let start ← here
  let quoted ← lexeme .string scanString
  let stop ← here
  return .constant (.text (String.ofList (unescape (enclosed quoted)))) ⟨source, start, stop⟩

/-- Reads a formula; blanks at its ends do not belong to it. -/
def formula (source : String) : Parser Expr := do
  let start ← here
  let quoted ← lexeme .formula scanFormula
  let stop ← here
  return .formula (String.ofList (Text.trimBlanks (enclosed quoted))) ⟨source, start, stop⟩

def variableName (source : String) : Parser Expr := do
  let start ← here
  let text ← ident
  let stop ← here
  return .name text ⟨source, start, stop⟩

def property (source : String) : Parser Expr := do
  let start ← here
  let named ← rule .property do
    symbol "<"
    layout
    let named ← variableName source
    layout
    symbol ">"
    return named
  let stop ← here
  return propertyOf named ⟨source, start, stop⟩

def parenthesised (expr : Parser Expr) : Parser Expr := do
  symbol "("
  layout
  let inner ← expr
  layout
  symbol ")"
  return inner

def atom (source : String) (expr : Parser Expr) : Parser Expr :=
  number source <|> string source <|> formula source <|> property source <|> parenthesised expr
    <|> variableName source

def tightOperator : Parser UnaryOp :=
  rule .closureOperator
    ((do symbol "^"; return .closure) <|> (do symbol "~"; return .transpose)
      <|> (do symbol "*"; return .reflexiveClosure))

def tight (source : String) (expr : Parser Expr) : Parser Expr :=
  prefixed source tightOperator (atom source expr)

/-- What follows an operand in a chain, with the offset where it ends. -/
inductive Link where
  | wildcard (stop : Nat)
  | operand (op : BinaryOp) (right : Expr) (stop : Nat)

def operatorLink (expectation : Expectation) (text : String) (op : BinaryOp)
    (operand : Parser Expr) : Parser Link := do
  let right ← rule expectation do
    symbol text
    layout
    operand
  let stop ← here
  return .operand op right stop

def wildcardLink : Parser Link := do
  rule .bracket do
    symbol "["
    layout
    symbol "_"
    layout
    symbol "]"
  let stop ← here
  return .wildcard stop

def argumentLink (expr : Parser Expr) : Parser Link := do
  let right ← rule .bracket do
    symbol "["
    layout
    let inner ← expr
    layout
    symbol "]"
    return inner
  let stop ← here
  return .operand .apply right stop

def link (source : String) (expr : Parser Expr) : Parser Link :=
  operatorLink .dot "." .join (tight source expr) <|> wildcardLink <|> argumentLink expr
    <|> operatorLink .domainRestriction "<:" .domainRestrict (tight source expr)
    <|> operatorLink .rangeRestriction ":>" .rangeRestrict (tight source expr)

/-- A node of a chain, from the start of what is before the link to the end of the link. -/
def extend (source : String) (before : Expr) : Link → Expr
  | .wildcard stop => .unary .wildcardApply before ⟨source, before.span.start, stop⟩
  | .operand op right stop => .binary op before right ⟨source, before.span.start, stop⟩

/-- Reads joins and applications, chained from the left. -/
def chain (source : String) (expr : Parser Expr) : Parser Expr :=
  rule .expression do
    let first ← tight source expr
    let links ← items (link source expr)
    return links.foldl (extend source) first

def aggregateOperator : Parser UnaryOp :=
  rule .aggregate
    ((do symbol "#"; return .count) <|> (do symbol "Σ"; return .aggregate .sum)
      <|> (do keyword .min; return .aggregate .min) <|> (do keyword .max; return .aggregate .max)
      <|> (do keyword .sum; return .aggregate .sum) <|> (do keyword .index; return .index)
      <|> (do keyword .concat; return .concat))

def aggregate (source : String) (expr : Parser Expr) : Parser Expr :=
  prefixed source aggregateOperator (chain source expr)

def multiplication (source : String) (expr : Parser Expr) : Parser Expr :=
  binaryBand source (do symbol "*"; return .arith .mul) (aggregate source expr)

def addition (source : String) (expr : Parser Expr) : Parser Expr :=
  binaryBand source (do symbol "+"; return .arith .add) (multiplication source expr)

def comparisonOf : List Char → Comparison
  | ['!', '='] => .ne
  | ['<'] => .lt
  | ['>'] => .gt
  | ['<', '='] | ['=', '<'] => .le
  | ['>', '='] => .ge
  | _ => .eq

def comparisonOperator : Parser BinaryOp := do
  let text ← lexeme .comparisonOperator scanComparison
  return .compare (comparisonOf text)

def comparison (source : String) (expr : Parser Expr) : Parser Expr :=
  rule .expression do
    let left ← addition source expr
    layout
    let right? ← maybe do
      let op ← comparisonOperator
      layout
      let right ← addition source expr
      return (op, right)
    return match right? with
      | some next => combine source left next
      | none => left

def quantifier : Parser UnaryOp :=
  rule .quantifier
    ((do keyword .some; return .quantify .some) <|> (do keyword .not; return .quantify .no))

def quantified (source : String) (expr : Parser Expr) : Parser Expr :=
  prefixed source quantifier (comparison source expr)

def product (source : String) (expr : Parser Expr) : Parser Expr :=
  binaryBand source (do symbol ","; return .product) (quantified source expr)

def setOperator : Parser BinaryOp :=
  rule .setOperator
    ((do symbol "&"; return .set .intersection)
      <|> (do let _ ← lexeme .setOperator (scanNotBefore '-' '>'); return .set .difference))

def intersection (source : String) (expr : Parser Expr) : Parser Expr :=
  binaryBand source setOperator (product source expr)

def union (source : String) (expr : Parser Expr) : Parser Expr :=
  binaryBand source (do symbol ";"; return .set .union) (intersection source expr)

def letBinding (source : String) (expr : Parser Expr) : Parser Expr := do
  let start ← here
  let (name, value, body) ← rule .expression do
    keyword .binding
    layout
    let name ← ident
    layout
    symbol "="
    layout
    let value ← union source expr
    layout
    symbol "|"
    layout
    let body ← expr
    return (name, value, body)
  let stop ← here
  return .letIn name value body ⟨source, start, stop⟩

def boundNames : Parser (List String) :=
  rule .identifier do
    let first ← ident
    let rest ← items do
      symbol ","
      layout
      ident
    return first :: rest

def comprehensionBody (expectation : Expectation) (sign : String) (style : Style)
    (expr : Parser Expr) : Parser (Style × Expr) :=
  rule expectation do
    symbol sign
    layout
    let body ← expr
    return (style, body)

def comprehension (source : String) (expr : Parser Expr) : Parser Expr := do
  let start ← here
  let (names, constraint, style, body) ← rule .expression do
    let names ← boundNames
    layout
    let _ ← lexeme .colon (scanNotBefore ':' '>')
    layout
    let constraint ← union source expr
    layout
    let (style, body) ← comprehensionBody .bar "|" .keep expr
      <|> comprehensionBody .arrow "->" .image expr
    return (names, constraint, style, body)
  let stop ← here
  return .comprehension style names constraint body ⟨source, start, stop⟩

/-- Reads an expression.  An expression within another stands after at least one character of it, so
`fuel` of one more than the number of characters to come is enough. -/
def expression (source : String) : Nat → Parser Expr
  | 0 => fail
  | fuel + 1 =>
    let inner := expression source fuel
    rule .expression (letBinding source inner <|> comprehension source inner <|> union source inner)

def query (source : String) : Parser Expr :=
  rule .expression do
    layout
    let e ← expression source (source.length + 1)
    layout
    endOfInput
    return e

end RelQuery.Grammar
