import RelQuery.Grammar.Parser
import RelQuery.Text.Basic

/-!
# Lexemes of the query language

Names, keywords, numbers, texts between quotes, formulas and the operators that need a look at the
next character.  No layout is passed over inside a lexeme.
-/

namespace RelQuery.Grammar

open Text (isNameStart isNameChar)

/-- Words that cannot be names. -/
inductive Keyword where
  | binding
  | some
  | not
  | min
  | max
  | sum
  | index
  | concat
  deriving DecidableEq, Repr

def Keyword.text : Keyword → String
  | .binding => "let"
  | .some => "some"
  | .not => "not"
  | .min => "min"
  | .max => "max"
  | .sum => "sum"
  | .index => "index"
  | .concat => "concat"

def Keyword.expectation : Keyword → Expectation
  | .binding => .keyword
  | .some | .not => .quantifier
  | .min | .max | .sum | .index | .concat => .aggregate

def Keyword.all : List Keyword :=
  [.binding, .some, .not, .min, .max, .sum, .index, .concat]

def isKeyword (word : List Char) : Bool :=
  Keyword.all.any fun keyword => keyword.text.toList == word

/-- Splits off the longest row of characters of a class. -/
def spanWhile (p : Char → Bool) (cs : List Char) : List Char × List Char :=
  (cs.takeWhile p, cs.dropWhile p)

/-- Splits off a name: the longest row of name characters, which does not start with a digit and is
no keyword. -/
def scanName (cs : List Char) : Option (List Char × List Char) :=
  if (cs.head?.map isNameStart).getD false && !isKeyword (cs.takeWhile isNameChar) then
    some (spanWhile isNameChar cs)
  else none

/-- Splits off a keyword that no name character follows. -/
def scanKeyword (keyword : Keyword) (cs : List Char) : Option (List Char × List Char) :=
  if cs.takeWhile isNameChar = keyword.text.toList then some (spanWhile isNameChar cs) else none

/-- Splits off a number: one or more digits. -/
def scanNumber (cs : List Char) : Option (List Char × List Char) :=
  if (cs.takeWhile Text.isDigit).isEmpty then none else some (spanWhile Text.isDigit cs)

/-- Splits a text off before the closing quote, where a backslash takes the next character with
it.  A backslash at the end of the source is left over. -/
def scanQuotedBody (quote : Char) : List Char → List Char × List Char
  | [] => ([], [])
  | '\\' :: c :: cs =>
    let (body, rest) := scanQuotedBody quote cs
    ('\\' :: c :: body, rest)
  | c :: cs =>
    if c == quote || c == '\\' then ([], c :: cs)
    else
      let (body, rest) := scanQuotedBody quote cs
      (c :: body, rest)

/-- Splits off a text between two `quote` characters, with the quotes. -/
def scanQuoted (quote : Char) : List Char → Option (List Char × List Char)
  | [] => none
  | c :: cs =>
    if c == quote then
      match scanQuotedBody quote cs with
      | (body, close :: rest) =>
        if close == quote then some (c :: body ++ [close], rest) else none
      | (_, []) => none
    else none

/-- Splits off a text between single or between double quotes. -/
def scanString (cs : List Char) : Option (List Char × List Char) :=
  (scanQuoted '\x27' cs).or (scanQuoted '"' cs)

def scanFormula : List Char → Option (List Char × List Char)
  | '\x60' :: cs =>
    match cs.dropWhile (· ≠ '\x60') with
    | close :: rest => some ('\x60' :: cs.takeWhile (· ≠ '\x60') ++ [close], rest)
    | [] => none
  | _ => none

/-- Resolves the backslashes of a text: three letters stand for control characters, any other
character for itself. -/
def unescape : List Char → List Char
  | '\\' :: 'n' :: cs => '\n' :: unescape cs
  | '\\' :: 't' :: cs => '\t' :: unescape cs
  | '\\' :: 'r' :: cs => '\r' :: unescape cs
  | '\\' :: c :: cs => c :: unescape cs
  | c :: cs => c :: unescape cs
  | [] => []

/-- Splits off one character that a given character does not follow. -/
def scanNotBefore (c forbidden : Char) : List Char → Option (List Char × List Char)
  | d :: cs => if d == c && cs.head? != some forbidden then some ([d], cs) else none
  | [] => none

def scanComparison : List Char → Option (List Char × List Char)
  | '<' :: '=' :: cs => some (['<', '='], cs)
  | '>' :: '=' :: cs => some (['>', '='], cs)
  | '=' :: '<' :: cs => some (['=', '<'], cs)
  | '!' :: '=' :: cs => some (['!', '='], cs)
  | '=' :: cs => some (['='], cs)
  | '<' :: ':' :: _ => none
  | '<' :: cs => some (['<'], cs)
  | '>' :: cs => some (['>'], cs)
  | _ => none

end RelQuery.Grammar
