import RelQuery.Json.Shape
import RelQuery.Toml.Layout

/-!
# Strings in settings files

A string has escapes between double quotes and none between single quotes.  Between three quotes it
may run over several lines; the line end after the opening quotes does not belong to it, and line
ends inside are line feeds.  Up to two quotes may stand before the closing ones.
-/

namespace RelQuery.Toml

def escaped? : Char → Option Char
  | '"' => some '"'
  | '\\' => some '\\'
  | 'b' => some '\x08'
  | 'f' => some '\x0c'
  | 'n' => some '\n'
  | 'r' => some '\r'
  | 't' => some '\t'
  | _ => none

def charOf? (code : Nat) : Option Char :=
  if code.isValidChar then some (Char.ofNat code) else none

def shortCode? (a b c d : Char) : Option Char :=
  (Json.hexCode? a b c d).bind charOf?

/-- The character of eight hexadecimal digits, given the codes of both halves. -/
def longCode? (high low : Option Nat) : Option Char :=
  high.bind fun h => low.bind fun l => charOf? (65536 * h + l)

/-- Reads a string with escapes up to its closing quote. -/
def scanBasic : List Char → Option (List Char × List Char)
  | [] => none
  | '"' :: cs => some ([], cs)
  | '\\' :: 'u' :: a :: b :: c :: d :: cs =>
    (shortCode? a b c d).bind fun x => Json.consFound x (scanBasic cs)
  | '\\' :: 'U' :: a :: b :: c :: d :: e :: f :: g :: h :: cs =>
    (longCode? (Json.hexCode? a b c d) (Json.hexCode? e f g h)).bind fun x =>
      Json.consFound x (scanBasic cs)
  | '\\' :: c :: cs => (escaped? c).bind fun x => Json.consFound x (scanBasic cs)
  | c :: cs => if isPlain c && c != '\\' then Json.consFound c (scanBasic cs) else none

/-- Reads a string without escapes up to its closing quote. -/
def scanLiteral : List Char → Option (List Char × List Char)
  | [] => none
  | c :: cs =>
    if c == '\x27' then some ([], cs)
    else if isPlain c then Json.consFound c (scanLiteral cs)
    else none

/-- What a backslash at the end of a line takes with it: nothing, the rest of its line, or all
blanks and line ends that follow. -/
inductive Trim where
  | nothing
  | line
  | blanks
  deriving DecidableEq, Repr

/-- Reads a string with escapes over several lines up to its closing quotes. -/
def scanBasicLines : Trim → List Char → Option (List Char × List Char)
  | _, [] => none
  | .line, '\n' :: cs => scanBasicLines .blanks cs
  | .line, '\r' :: '\n' :: cs => scanBasicLines .blanks cs
  | .line, c :: cs => if isBlank c then scanBasicLines .line cs else none
  | .blanks, '\n' :: cs => scanBasicLines .blanks cs
  | .blanks, '\r' :: '\n' :: cs => scanBasicLines .blanks cs
  | .blanks, ' ' :: cs => scanBasicLines .blanks cs
  | .blanks, '\t' :: cs => scanBasicLines .blanks cs
  | _, '"' :: '"' :: '"' :: '"' :: '"' :: cs => some (['"', '"'], cs)
  | _, '"' :: '"' :: '"' :: '"' :: cs => some (['"'], cs)
  | _, '"' :: '"' :: '"' :: cs => some ([], cs)
  | _, '\n' :: cs => Json.consFound '\n' (scanBasicLines .nothing cs)
  | _, '\r' :: '\n' :: cs => Json.consFound '\n' (scanBasicLines .nothing cs)
  | _, '\\' :: '\n' :: cs => scanBasicLines .blanks cs
  | _, '\\' :: '\r' :: '\n' :: cs => scanBasicLines .blanks cs
  | _, '\\' :: ' ' :: cs => scanBasicLines .line cs
  | _, '\\' :: '\t' :: cs => scanBasicLines .line cs
  | _, '\\' :: 'u' :: a :: b :: c :: d :: cs =>
    (shortCode? a b c d).bind fun x => Json.consFound x (scanBasicLines .nothing cs)
  | _, '\\' :: 'U' :: a :: b :: c :: d :: e :: f :: g :: h :: cs =>
    (longCode? (Json.hexCode? a b c d) (Json.hexCode? e f g h)).bind fun x =>
      Json.consFound x (scanBasicLines .nothing cs)
  | _, '\\' :: c :: cs => (escaped? c).bind fun x => Json.consFound x (scanBasicLines .nothing cs)
  | _, c :: cs =>
    if isPlain c && c != '\\' then Json.consFound c (scanBasicLines .nothing cs) else none

/-- Reads a string without escapes over several lines up to its closing quotes. -/
def scanLiteralLines : List Char → Option (List Char × List Char)
  | [] => none
  | '\x27' :: '\x27' :: '\x27' :: '\x27' :: '\x27' :: cs => some (['\x27', '\x27'], cs)
  | '\x27' :: '\x27' :: '\x27' :: '\x27' :: cs => some (['\x27'], cs)
  | '\x27' :: '\x27' :: '\x27' :: cs => some ([], cs)
  | '\n' :: cs => Json.consFound '\n' (scanLiteralLines cs)
  | '\r' :: '\n' :: cs => Json.consFound '\n' (scanLiteralLines cs)
  | c :: cs => if isPlain c then Json.consFound c (scanLiteralLines cs) else none

def scanString? : List Char → Option (Option (List Char × List Char))
  | '"' :: '"' :: '"' :: cs => some (scanBasicLines .nothing (skipLineEnd cs))
  | '"' :: cs => some (scanBasic cs)
  | '\x27' :: '\x27' :: '\x27' :: cs => some (scanLiteralLines (skipLineEnd cs))
  | '\x27' :: cs => some (scanLiteral cs)
  | _ => none

end RelQuery.Toml
