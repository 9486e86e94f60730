import RelQuery.Json.Basic
import RelQuery.Scalar.Double

/-!
# Numbers in JSON

A number is written as a sign, digits before the point, digits behind it and an exponent.  Its
digits are gathered in a word of 64 bits, and those that find no room there only scale the number.
A number beyond the range of a double has no value.
-/

namespace RelQuery.Json

/-- A number as it is written; the exponent is given by whether it is negative and by its digits. -/
structure Numeral where
  negative : Bool
  whole : List Char
  fraction : List Char
  exponent : Option (Bool × List Char)
  deriving DecidableEq, Repr

def spanDigits (cs : List Char) : List Char × List Char :=
  (cs.takeWhile Text.isDigit, cs.dropWhile Text.isDigit)

/-- Reads the digits before the point: one zero, or digits without a leading zero. -/
def scanWhole : List Char → Option (List Char × List Char)
  | '0' :: cs => if (cs.head?.map Text.isDigit).getD false then none else some (['0'], cs)
  | cs => if (spanDigits cs).1.isEmpty then none else some (spanDigits cs)

/-- Reads the point and the digits behind it, if there is a point. -/
def scanFraction : List Char → Option (List Char × List Char)
  | '.' :: cs => if (spanDigits cs).1.isEmpty then none else some (spanDigits cs)
  | cs => some ([], cs)

def scanPower (negative : Bool) (cs : List Char) : Option (Option (Bool × List Char) × List Char) :=
  if (spanDigits cs).1.isEmpty then none
  else some (some (negative, (spanDigits cs).1), (spanDigits cs).2)

/-- Reads an exponent, if there is one. -/
def scanExponent : List Char → Option (Option (Bool × List Char) × List Char)
  | [] => some (none, [])
  | c :: cs =>
    if c == 'e' || c == 'E' then
      match cs with
      | '-' :: rest => scanPower true rest
      | '+' :: rest => scanPower false rest
      | rest => scanPower false rest
    else some (none, c :: cs)

namespace Numeral

def scanUnsigned (negative : Bool) (cs : List Char) : Option (Numeral × List Char) := do
  let (whole, afterWhole) ← scanWhole cs
  let (fraction, afterFraction) ← scanFraction afterWhole
  let (exponent, rest) ← scanExponent afterFraction
  return (⟨negative, whole, fraction, exponent⟩, rest)

def scan : List Char → Option (Numeral × List Char)
  | '-' :: cs => scanUnsigned true cs
  | cs => scanUnsigned false cs

/-- Adds digits to a number as long as it fits 64 bits, and gives the digits that are left. -/
def gather : Nat → List Char → Nat × List Char
  | value, [] => (value, [])
  | value, c :: cs =>
    let next := 10 * value + (c.toNat - '0'.toNat)
    if Text.fitsUnsigned 64 next then gather next cs else (value, c :: cs)

/-- The digits that found room, and the power of ten that scales them. -/
def scaled (numeral : Numeral) : Nat × Int :=
  let (value, lost) := gather 0 numeral.whole
  let (value, ignored) := gather value numeral.fraction
  (value, (lost.length : Int) + ignored.length - numeral.fraction.length)

/-- Whether a number has no value.  An exponent of more than 32 bits is not looked at further. -/
def isTooLarge (numeral : Numeral) : Bool :=
  let (value, scale) := numeral.scaled
  match numeral.exponent with
  | none => Double.productExceeds value scale
  | some (negative, digits) =>
    let power : Int := Text.digitsValue digits
    if Text.fitsSigned 32 power then
      Double.productExceeds value (if negative then scale - power else scale + power)
    else value != 0 && !negative

def spelling (numeral : Numeral) : List Char :=
  (if numeral.negative then ['-'] else []) ++ numeral.whole
    ++ (if numeral.fraction.isEmpty then [] else '.' :: numeral.fraction)
    ++ match numeral.exponent with
      | none => []
      | some (negative, digits) => 'e' :: (if negative then '-' :: digits else digits)

/-- The value of a number.  Zero with a minus is not an integer. -/
def value? (numeral : Numeral) : Option Json :=
  let whole := Text.digitsValue numeral.whole
  if numeral.isTooLarge then none
  else if numeral.fraction.isEmpty && numeral.exponent.isNone && !(numeral.negative && whole == 0)
  then some (.int (if numeral.negative then -whole else whole))
  else some (.real (String.ofList numeral.spelling))

end Numeral

end RelQuery.Json
