import RelQuery.Grammar.Lexeme
import RelQuery.Source.Basic

/-!
# The grammar of queries

The bands of operators run from the loosest, bindings, to the tightest, atoms.  A band is a parser
that is given the parser of the next tighter band; the parser of whole expressions comes in where an
expression stands between brackets or after a binding.

A rule that matches leaves a pair: its name, the offsets between which it matched and the pairs of
the rules inside it.  Signs leave no pair.  A rule matches up to where its last part ended, so that
its pair may end in layout.
-/

namespace RelQuery.Grammar

/-- The rules that leave a pair. -/
inductive Rule where
  | query
  | expression
  | letBinding
  | comprehension
  | boundNames
  | keepBody
  | imageBody
  | colon
  | union
  | intersection
  | setOperator
  | minus
  | product
  | quantified
  | quantifier
  | comparison
  | comparisonOperator
  | addition
  | multiplication
  | aggregate
  | aggregateOperator
  | chain
  | dotJoin
  | wildcardApply
  | application
  | domainRestriction
  | rangeRestriction
  | tight
  | tightOperator
  | number
  | string
  | singleQuoted
  | doubleQuoted
  | formula
  | formulaText
  | property
  | identifier
  | keyword (word : Keyword)
  | endOfInput
  deriving DecidableEq, Repr

def Rule.expectation : Rule → Expectation
  | .endOfInput => .endOfInput
  | .identifier | .boundNames => .identifier
  | .number => .number
  | .string | .singleQuoted | .doubleQuoted => .string
  | .formula | .formulaText => .formula
  | .colon => .colon
  | .keepBody => .bar
  | .imageBody => .arrow
  | .setOperator | .minus => .setOperator
  | .comparisonOperator => .comparisonOperator
  | .quantifier => .quantifier
  | .aggregateOperator => .aggregate
  | .dotJoin => .dot
  | .wildcardApply | .application => .bracket
  | .domainRestriction => .domainRestriction
  | .rangeRestriction => .rangeRestriction
  | .tightOperator => .closureOperator
  | .property => .property
  | .keyword word => word.expectation
  | .query | .expression | .letBinding | .comprehension | .union | .intersection | .product
  | .quantified | .comparison | .addition | .multiplication | .aggregate | .chain | .tight =>
    .expression

/-- A match of a rule between two byte offsets, with the matches inside it. -/
inductive Pair where
  | mk (rule : Rule) (start stop : Nat) (inner : List Pair)
  deriving Repr

namespace Pair

def rule : Pair → Rule
  | mk rule _ _ _ => rule

def start : Pair → Nat
  | mk _ start _ _ => start

def stop : Pair → Nat
  | mk _ _ stop _ => stop

def inner : Pair → List Pair
  | mk _ _ _ inner => inner

def span (source : String) (pair : Pair) : Span :=
  ⟨source, pair.start, pair.stop⟩

def text (source : String) (pair : Pair) : String :=
  (pair.span source).text

end Pair

namespace Pairs

open RelQuery.Grammar.Parser

/-- Reads by a rule and leaves its pair around those of its parts. -/
def node (r : Rule) (parts : Parser (List Pair)) : Parser Pair := do
  let start ← here
  let inner ← Parser.rule r.expectation parts
  let stop ← here
  return .mk r start stop inner

def leaf (r : Rule) (scan : List Char → Option (List Char × List Char)) : Parser Pair :=
  node r do
    let _ ← scanning scan
    return []

def identifier : Parser Pair :=
  leaf .identifier scanName

def keyword (word : Keyword) : Parser Pair :=
  leaf (.keyword word) (scanKeyword word)

def endOfInput : Parser Pair :=
  node .endOfInput fun cursor => if cursor.rest.isEmpty then succeed [] cursor else fail cursor

/-- A sign leaves no pair. -/
def sign (text : String) : Parser (List Pair) := do
  symbol text
  return []

/-- A part that is one pair. -/
def only (part : Parser Pair) : Parser (List Pair) := do
  let pair ← part
  return [pair]

/-- Reads operands with an operator between any two. -/
def binaryBand (r : Rule) (operator : Parser (List Pair)) (operand : Parser Pair) : Parser Pair :=
  node r do
    let first ← operand
    let rest ← items do
      let op ← operator
      layout
      let right ← operand
      return op ++ [right]
    return first :: rest.flatten

/-- Reads any number of prefix operators before an operand.  Each takes at least one character, so
`fuel` of one more than the number of characters to come is enough. -/
def prefixBand (r : Rule) (operator operand : Parser Pair) : Nat → Parser Pair
  | 0 => fail
  | fuel + 1 =>
    node r
      ((do
        let op ← operator
        layout
        let inner ← prefixBand r operator operand fuel
        return [op, inner]) <|> only operand)

/-- A prefix band with as much fuel as the place where it is read needs. -/
def prefixed (r : Rule) (operator operand : Parser Pair) : Parser Pair := fun cursor =>
  prefixBand r operator operand (cursor.rest.length + 1) cursor

def number : Parser Pair :=
  leaf .number scanNumber

/-- Reads by a rule whose first and last character enclose its only part. -/
def enclosing (r : Rule) (part : List Char → Rule)
    (scan : List Char → Option (List Char × List Char)) : Parser Pair :=
  node r do
    let start ← here
    let taken ← scanning scan
    let stop ← here
    return [.mk (part taken) (start + 1) (stop - 1) []]

def string : Parser Pair :=
  enclosing .string
    (fun taken => if taken.head? = some '"' then .doubleQuoted else .singleQuoted) scanString

def formula : Parser Pair :=
  enclosing .formula (fun _ => .formulaText) scanFormula

def property : Parser Pair :=
  node .property do
    symbol "<"
    layout
    let name ← identifier
    layout
    symbol ">"
    return [name]

/-- Parentheses leave the pair of what is between them. -/
def parenthesised (expr : Parser Pair) : Parser Pair := do
  symbol "("
  layout
  let inner ← expr
  layout
  symbol ")"
  return inner

def atom (expr : Parser Pair) : Parser Pair :=
  number <|> string <|> formula <|> property <|> parenthesised expr <|> identifier

def tightOperator : Parser Pair :=
  node .tightOperator (sign "^" <|> sign "~" <|> sign "*")

def tight (expr : Parser Pair) : Parser Pair :=
  prefixed .tight tightOperator (atom expr)

def operatorLink (r : Rule) (text : String) (operand : Parser Pair) : Parser Pair :=
  node r do
    symbol text
    layout
    only operand

def wildcardLink : Parser Pair :=
  node .wildcardApply do
    symbol "["
    layout
    symbol "_"
    layout
    sign "]"

def argumentLink (expr : Parser Pair) : Parser Pair :=
  node .application do
    symbol "["
    layout
    let inner ← expr
    layout
    symbol "]"
    return [inner]

def link (expr : Parser Pair) : Parser Pair :=
  operatorLink .dotJoin "." (tight expr) <|> wildcardLink <|> argumentLink expr
    <|> operatorLink .domainRestriction "<:" (tight expr)
    <|> operatorLink .rangeRestriction ":>" (tight expr)

def chain (expr : Parser Pair) : Parser Pair :=
  node .chain do
    let first ← tight expr
    let links ← items (link expr)
    return first :: links

def aggregateOperator : Parser Pair :=
  node .aggregateOperator
    (sign "#" <|> sign "Σ" <|> only (keyword .min) <|> only (keyword .max) <|> only (keyword .sum)
      <|> only (keyword .index) <|> only (keyword .concat))

def aggregate (expr : Parser Pair) : Parser Pair :=
  prefixed .aggregate aggregateOperator (chain expr)

def multiplication (expr : Parser Pair) : Parser Pair :=
  binaryBand .multiplication (sign "*") (aggregate expr)

def addition (expr : Parser Pair) : Parser Pair :=
  binaryBand .addition (sign "+") (multiplication expr)

def comparisonOperator : Parser Pair :=
  leaf .comparisonOperator scanComparison

/-- Reads at most one comparison. -/
def comparison (expr : Parser Pair) : Parser Pair :=
  node .comparison do
    let left ← addition expr
    layout
    let right? ← maybe do
      let op ← comparisonOperator
      layout
      let right ← addition expr
      return [op, right]
    return left :: right?.getD []

def quantifier : Parser Pair :=
  node .quantifier (only (keyword .some) <|> only (keyword .not))

def quantified (expr : Parser Pair) : Parser Pair :=
  prefixed .quantified quantifier (comparison expr)

def product (expr : Parser Pair) : Parser Pair :=
  binaryBand .product (sign ",") (quantified expr)

def setOperator : Parser Pair :=
  node .setOperator (sign "&" <|> only (leaf .minus (scanNotBefore '-' '>')))

/-- Reads intersections and differences, whose operators leave pairs. -/
def intersection (expr : Parser Pair) : Parser Pair :=
  binaryBand .intersection (only setOperator) (product expr)

def union (expr : Parser Pair) : Parser Pair :=
  binaryBand .union (sign ";") (intersection expr)

def letBinding (expr : Parser Pair) : Parser Pair :=
  node .letBinding do
    let word ← keyword .binding
    layout
    let name ← identifier
    layout
    symbol "="
    layout
    let value ← union expr
    layout
    symbol "|"
    layout
    let body ← expr
    return [word, name, value, body]

def boundNames : Parser Pair :=
  node .boundNames do
    let first ← identifier
    let rest ← items do
      symbol ","
      layout
      identifier
    return first :: rest

def comprehensionBody (r : Rule) (text : String) (expr : Parser Pair) : Parser Pair :=
  node r do
    symbol text
    layout
    only expr

def comprehension (expr : Parser Pair) : Parser Pair :=
  node .comprehension do
    let names ← boundNames
    layout
    let colon ← leaf .colon (scanNotBefore ':' '>')
    layout
    let constraint ← union expr
    layout
    let body ← comprehensionBody .keepBody "|" expr <|> comprehensionBody .imageBody "->" expr
    return [names, colon, constraint, body]

/-- Reads an expression.  An expression within another stands after at least one character of it, so
`fuel` of one more than the number of characters to come is enough. -/
def expression : Nat → Parser Pair
  | 0 => fail
  | fuel + 1 =>
    let inner := expression fuel
    node .expression (only (letBinding inner <|> comprehension inner <|> union inner))

def query (source : String) : Parser Pair :=
  node .query do
    layout
    let e ← expression (source.length + 1)
    layout
    let last ← endOfInput
    return [e, last]

end Pairs

end RelQuery.Grammar
