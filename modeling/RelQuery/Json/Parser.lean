import RelQuery.Json.Shape

/-!
# Reading JSON

A text has a value if all that it is made of has one: no number is beyond the range of a double, no
escape is half of a surrogate pair without the other half, and there are no more than 127 levels of
brackets.
-/

namespace RelQuery.Json

/-- The character of a code that is no half of a surrogate pair. -/
def charOf? (code : Nat) : Option Char :=
  if 0xd800 ≤ code ∧ code < 0xe000 then none else some (Char.ofNat code)

/-- Whether a code is the first half of a surrogate pair. -/
def isHighSurrogate (code : Nat) : Bool :=
  decide (0xd800 ≤ code) && decide (code < 0xdc00)

/-- The character of a surrogate pair with a given first half. -/
def pairOf? (high low : Nat) : Option Char :=
  if 0xdc00 ≤ low ∧ low < 0xe000 then
    some (Char.ofNat (0x10000 + 0x400 * (high - 0xd800) + (low - 0xdc00)))
  else none

/-- The characters of the pieces of a string.  The second half of a surrogate pair must follow the
first at once. -/
def charsOf? : List Piece → Option (List Char)
  | [] => some []
  | .char c :: pieces => (charsOf? pieces).map (c :: ·)
  | .code high :: .code low :: pieces =>
    if isHighSurrogate high then
      (pairOf? high low).bind fun c => (charsOf? pieces).map (c :: ·)
    else (charOf? high).bind fun c => (charsOf? (.code low :: pieces)).map (c :: ·)
  | .code code :: pieces => (charOf? code).bind fun c => (charsOf? pieces).map (c :: ·)

def textOf? (pieces : List Piece) : Option String :=
  (charsOf? pieces).map String.ofList

namespace Shape

mutual

def value? : Shape → Option Json
  | null => some .null
  | bool flag => some (.bool flag)
  | number numeral => numeral.value?
  | string pieces => (textOf? pieces).map .string
  | array items => (values? items).map .array
  | object members => (memberValues? members).map .object

def values? : List Shape → Option (List Json)
  | [] => some []
  | item :: rest => (value? item).bind fun found => (values? rest).map (found :: ·)

def memberValues? : List (List Piece × Shape) → Option (List (String × Json))
  | [] => some []
  | (pieces, shape) :: rest =>
    (textOf? pieces).bind fun key => (value? shape).bind fun found =>
      (memberValues? rest).map ((key, found) :: ·)

end

end Shape

def maxDepth : Nat := 127

def parse (text : String) : Option Json :=
  (Shape.parse maxDepth text).bind Shape.value?

end RelQuery.Json
