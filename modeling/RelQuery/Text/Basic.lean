/-!
# Characters and texts

Classes of characters, byte offsets, lines, decimal integers and sorted lists of names.
-/

namespace RelQuery.Text

/-! ## Classes of characters

A class is a list of closed intervals of code points in increasing order. -/

/-- Whether `n` lies in one of the intervals.  The search stops at the first interval that starts
above `n`, so the order matters. -/
def inIntervals : List (Nat × Nat) → Nat → Bool
  | [], _ => false
  | (low, high) :: rest, n =>
    if n < low then false else decide (n ≤ high) || inIntervals rest n

/-- The code points with the `White_Space` property. -/
def blankIntervals : List (Nat × Nat) :=
  [(0x9, 0xd), (0x20, 0x20), (0x85, 0x85), (0xa0, 0xa0), (0x1680, 0x1680), (0x2000, 0x200a),
   (0x2028, 0x2029), (0x202f, 0x202f), (0x205f, 0x205f), (0x3000, 0x3000)]

def isBlank (c : Char) : Bool :=
  inIntervals blankIntervals c.toNat

/-- The characters between the first and the last one that is not blank. -/
def trimBlanks (cs : List Char) : List Char :=
  ((cs.dropWhile isBlank).reverse.dropWhile isBlank).reverse

def trim (text : String) : String :=
  String.ofList (trimBlanks text.toList)

/-! ## Identifiers -/

def isNameStart (c : Char) : Bool :=
  c.isAlpha || c == '_'

def isNameChar (c : Char) : Bool :=
  c.isAlphanum || c == '_'

/-- Whether a row of characters is made of ASCII letters, digits and underscores and does not start
with a digit. -/
def isIdentifier (word : List Char) : Bool :=
  (word.head?.map isNameStart).getD false && word.all isNameChar

/-! ## Byte offsets

Offsets into a text count bytes of its UTF-8 form.  An offset that falls inside a character names
no place in the text, so cutting there gives nothing. -/

def byteLength : List Char → Nat
  | [] => 0
  | c :: cs => c.utf8Size + byteLength cs

/-- The characters that make up exactly the first `n` bytes. -/
def takeBytes? : Nat → List Char → Option (List Char)
  | 0, _ => some []
  | _ + 1, [] => none
  | n + 1, c :: cs =>
    if c.utf8Size ≤ n + 1 then (takeBytes? (n + 1 - c.utf8Size) cs).map (c :: ·) else none

/-- The characters after exactly the first `n` bytes. -/
def dropBytes? : Nat → List Char → Option (List Char)
  | 0, cs => some cs
  | _ + 1, [] => none
  | n + 1, c :: cs =>
    if c.utf8Size ≤ n + 1 then dropBytes? (n + 1 - c.utf8Size) cs else none

/-- The characters from byte `start` up to byte `stop`. -/
def sliceBytes? (start stop : Nat) (cs : List Char) : Option (List Char) :=
  if start ≤ stop then (dropBytes? start cs).bind (takeBytes? (stop - start)) else none

/-! ## Lines and fields

A text is cut at every occurrence of a separator.  Lines end in a line feed, which may have a
carriage return before it; the last line need not end in anything. -/

/-- Puts a character in front of the first piece, or starts a new piece at a separator. -/
def consPiece (separator c : Char) : List (List Char) → List (List Char)
  | [] => [[c]]
  | piece :: pieces => if c = separator then [] :: piece :: pieces else (c :: piece) :: pieces

/-- The pieces between separators; there is one more piece than there are separators. -/
def pieces (separator : Char) (cs : List Char) : List (List Char) :=
  cs.foldr (consPiece separator) [[]]

def dropReturn (line : List Char) : List Char :=
  if line.getLast? = some '\r' then line.dropLast else line

/-- The lines of a text.  A carriage return is dropped only before a line feed, and there is no
empty line after the last line feed. -/
def linesOf (cs : List Char) : List (List Char) :=
  let all := pieces '\n' cs
  all.dropLast.map dropReturn ++ (all.getLast?.toList.filter fun line => !line.isEmpty)

/-! ## Decimal integers

An integer is read from an optional sign and one or more digits.  Bounds are those of a word of a
given number of bits. -/

def isDigit (c : Char) : Bool :=
  decide ('0' ≤ c) && decide (c ≤ '9')

def digitsValue (digits : List Char) : Nat :=
  digits.foldl (fun value c => 10 * value + (c.toNat - '0'.toNat)) 0

/-- The number spelled by one or more digits and nothing else. -/
def readDigits? (cs : List Char) : Option Nat :=
  if !cs.isEmpty && cs.all isDigit then some (digitsValue cs) else none

def readInt? : List Char → Option Int
  | '-' :: cs => (readDigits? cs).map fun n => -(n : Int)
  | '+' :: cs => (readDigits? cs).map fun n => (n : Int)
  | cs => (readDigits? cs).map fun n => (n : Int)

def wordCount (bits : Nat) : Nat :=
  Nat.pow 2 bits

def fitsUnsigned (bits : Nat) (n : Int) : Bool :=
  decide (0 ≤ n) && decide (n < (wordCount bits : Int))

def fitsSigned (bits : Nat) (n : Int) : Bool :=
  decide (-(wordCount (bits - 1) : Int) ≤ n) && decide (n < (wordCount (bits - 1) : Int))

/-- The integer of a signed word of `bits` bits that a text spells. -/
def readSigned? (bits : Nat) (cs : List Char) : Option Int :=
  (readInt? cs).filter (fitsSigned bits)

/-! ## Sorted names -/

/-- Drops every element that equals the one before it. -/
def dropRepeats {α : Type} [DecidableEq α] : List α → List α
  | [] => []
  | [x] => [x]
  | x :: y :: rest => if x = y then dropRepeats (y :: rest) else x :: dropRepeats (y :: rest)

/-- The names of a list in the order of their characters' code points, each once. -/
def sortNames (names : List String) : List String :=
  dropRepeats (names.mergeSort fun a b => decide (a ≤ b))

end RelQuery.Text
