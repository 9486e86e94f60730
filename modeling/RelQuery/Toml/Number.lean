import RelQuery.Json.Shape

/-!
# Numbers in settings files

Integers have 64 bits and may be written in four bases.  Other numbers have a point or an exponent,
or are infinite or undefined; one that is too large for a double is refused unless it is negative.
An underscore may stand between two digits.
-/

namespace RelQuery.Toml

/-- Digits without the underscores, each of which must stand between two digits. -/
def joinDigits (isDigit : Char → Bool) : Bool → List Char → Option (List Char)
  | _, [] => some []
  | afterDigit, '_' :: c :: cs =>
    if afterDigit && isDigit c then (joinDigits isDigit true cs).map (c :: ·) else none
  | _, c :: cs => if c == '_' then none else (joinDigits isDigit (isDigit c) cs).map (c :: ·)

def dropSign : List Char → List Char
  | '+' :: cs => cs
  | '-' :: cs => cs
  | cs => cs

def baseValue? (base : Nat) (digits : List Char) : Option Nat :=
  if digits.isEmpty then none
  else
    digits.foldlM (fun value c => (Json.hexDigit? c).bind fun digit =>
      if digit < base then some (base * value + digit) else none) 0

def inBase? (base : Nat) (digits : List Char) : Option Int :=
  ((joinDigits (fun c => (Json.hexDigit? c).isSome) false digits).bind (baseValue? base)).map
    fun n => (n : Int)

def integer? (word : List Char) : Option Int :=
  let found := match word with
    | '0' :: 'x' :: digits => inBase? 16 digits
    | '0' :: 'o' :: digits => inBase? 8 digits
    | '0' :: 'b' :: digits => inBase? 2 digits
    | _ =>
      (joinDigits Text.isDigit false word).bind fun cs =>
        match dropSign cs with
        | '0' :: _ :: _ => none
        | _ => Text.readInt? cs
  found.filter (Text.fitsSigned 64)

/-- Whether a number is too large for a double. -/
def isTooLarge (numeral : Json.Numeral) : Bool :=
  let power : Int := match numeral.exponent with
    | none => 0
    | some (negative, digits) =>
      if negative then -(Text.digitsValue digits : Int) else Text.digitsValue digits
  Double.exceeds (Text.digitsValue (numeral.whole ++ numeral.fraction))
    (power - numeral.fraction.length)

/-- Whether a word is a number that is not an integer. -/
def isReal (word : List Char) : Bool :=
  let unsigned := dropSign word
  let found := do
    let cs ← joinDigits Text.isDigit false unsigned
    let (numeral, rest) ← Json.Numeral.scanUnsigned (word.head? == some '-') cs
    return rest.isEmpty && (!numeral.fraction.isEmpty || numeral.exponent.isSome)
      && (numeral.negative || !isTooLarge numeral)
  found.getD false || unsigned == "inf".toList || unsigned == "nan".toList

end RelQuery.Toml
