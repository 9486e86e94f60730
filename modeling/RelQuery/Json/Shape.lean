import RelQuery.Json.Numeral

/-!
# The shape of a JSON text

A text is first read for its shape: its brackets, the pieces of its strings and its numbers as they
are written.  It is read strictly: no comments, no commas at the end and no control characters in
strings.  A shape need not have a value, because a number may be too large and an escape may be half
of a surrogate pair.
-/

namespace RelQuery.Json

/-- A piece of a string: a character, or the code of an escape with four digits. -/
inductive Piece where
  | char (c : Char)
  | code (n : Nat)
  deriving DecidableEq, Repr

inductive Shape where
  | null
  | bool (value : Bool)
  | number (numeral : Numeral)
  | string (pieces : List Piece)
  | array (items : List Shape)
  | object (members : List (List Piece × Shape))
  deriving Repr

/-- Whether a character may stand between tokens. -/
def isSpace (c : Char) : Bool :=
  c == ' ' || c == '\t' || c == '\r' || c == '\n'

def skipSpace (cs : List Char) : List Char :=
  cs.dropWhile isSpace

def hexDigit? (c : Char) : Option Nat :=
  if Text.isDigit c then some (c.toNat - '0'.toNat)
  else if 'a' ≤ c ∧ c ≤ 'f' then some (c.toNat - 'a'.toNat + 10)
  else if 'A' ≤ c ∧ c ≤ 'F' then some (c.toNat - 'A'.toNat + 10)
  else none

def hexCode? (a b c d : Char) : Option Nat := do
  return 4096 * (← hexDigit? a) + 256 * (← hexDigit? b) + 16 * (← hexDigit? c) + (← hexDigit? d)

def escaped? : Char → Option Char
  | '"' => some '"'
  | '\\' => some '\\'
  | '/' => some '/'
  | 'b' => some '\x08'
  | 'f' => some '\x0c'
  | 'n' => some '\n'
  | 'r' => some '\r'
  | 't' => some '\t'
  | _ => none

/-- Puts something in front of the list that is read from the rest. -/
def consFound {α : Type} (a : α) (rest : Option (List α × List Char)) :
    Option (List α × List Char) :=
  rest.map fun found => (a :: found.1, found.2)

def scanString : List Char → Option (List Piece × List Char)
  | [] => none
  | '"' :: cs => some ([], cs)
  | '\\' :: 'u' :: a :: b :: c :: d :: cs =>
    (hexCode? a b c d).bind fun code => consFound (.code code) (scanString cs)
  | '\\' :: c :: cs => (escaped? c).bind fun x => consFound (.char x) (scanString cs)
  | c :: cs => if c.toNat < 32 || c == '\\' then none else consFound (.char c) (scanString cs)

namespace Shape

mutual

/-- Reads a shape after layout.  `depth` is the number of brackets that may still be opened. -/
def scan : Nat → Nat → List Char → Option (Shape × List Char)
  | 0, _, _ => none
  | fuel + 1, depth, cs =>
    match skipSpace cs with
    | 'n' :: 'u' :: 'l' :: 'l' :: rest => some (.null, rest)
    | 't' :: 'r' :: 'u' :: 'e' :: rest => some (.bool true, rest)
    | 'f' :: 'a' :: 'l' :: 's' :: 'e' :: rest => some (.bool false, rest)
    | '"' :: rest => (scanString rest).map fun found => (.string found.1, found.2)
    | '[' :: rest =>
      if depth = 0 then none
      else
        match skipSpace rest with
        | ']' :: after => some (.array [], after)
        | inner => (scanItems fuel (depth - 1) inner).map fun found => (.array found.1, found.2)
    | '\x7b' :: rest =>
      if depth = 0 then none
      else
        match skipSpace rest with
        | '\x7d' :: after => some (.object [], after)
        | inner => (scanMembers fuel (depth - 1) inner).map fun found => (.object found.1, found.2)
    | other => (Numeral.scan other).map fun found => (.number found.1, found.2)

def scanItems : Nat → Nat → List Char → Option (List Shape × List Char)
  | 0, _, _ => none
  | fuel + 1, depth, cs =>
    (scan fuel depth cs).bind fun (item, rest) =>
      match skipSpace rest with
      | ',' :: more => consFound item (scanItems fuel depth more)
      | ']' :: after => some ([item], after)
      | _ => none

def scanMembers : Nat → Nat → List Char → Option (List (List Piece × Shape) × List Char)
  | 0, _, _ => none
  | fuel + 1, depth, cs =>
    match skipSpace cs with
    | '"' :: afterQuote =>
      (scanString afterQuote).bind fun (key, afterKey) =>
        match skipSpace afterKey with
        | ':' :: afterColon =>
          (scan fuel depth afterColon).bind fun (value, rest) =>
            match skipSpace rest with
            | ',' :: more => consFound (key, value) (scanMembers fuel depth more)
            | '\x7d' :: after => some ([(key, value)], after)
            | _ => none
        | _ => none
    | _ => none

end

/-- The shape of a text with no more than `depth` levels of brackets.  Each level of reading takes a
character or ends, so twice the number of characters is enough fuel. -/
def parse (depth : Nat) (text : String) : Option Shape :=
  (scan (2 * text.length + 2) depth text.toList).bind fun (shape, rest) =>
    if (skipSpace rest).isEmpty then some shape else none

end Shape

end RelQuery.Json
