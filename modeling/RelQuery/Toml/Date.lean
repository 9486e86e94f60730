import RelQuery.Text.Basic

/-!
# Dates and times

A date may be followed by a time of day, and this by its offset.  A time of day may stand alone.
The calendar is the Gregorian one, and a minute may have a leap second.
-/

namespace RelQuery.Toml

/-- Reads a number of exactly `count` digits that lies between two bounds. -/
def scanPlaces (count low high : Nat) (cs : List Char) : Option (Nat × List Char) :=
  let digits := cs.take count
  let value := Text.digitsValue digits
  if digits.length = count ∧ digits.all Text.isDigit ∧ low ≤ value ∧ value ≤ high then
    some (value, cs.drop count)
  else none

def expect (c : Char) : List Char → Option (List Char)
  | [] => none
  | d :: cs => if c = d then some cs else none

def isLeapYear (year : Nat) : Bool :=
  year % 4 == 0 && (year % 100 != 0 || year % 400 == 0)

def daysIn (year month : Nat) : Nat :=
  if month = 2 then (if isLeapYear year then 29 else 28)
  else if month = 4 ∨ month = 6 ∨ month = 9 ∨ month = 11 then 30
  else 31

def skipDay (cs : List Char) : Option (List Char) := do
  let (year, cs) ← scanPlaces 4 0 9999 cs
  let (month, cs) ← scanPlaces 2 1 12 (← expect '-' cs)
  let (_, cs) ← scanPlaces 2 1 (daysIn year month) (← expect '-' cs)
  return cs

/-- What follows the fraction of a second, if there is one. -/
def skipFraction : List Char → List Char
  | '.' :: cs =>
    if (cs.head?.map Text.isDigit).getD false then cs.dropWhile Text.isDigit else '.' :: cs
  | cs => cs

def skipTime (cs : List Char) : Option (List Char) := do
  let (_, cs) ← scanPlaces 2 0 23 cs
  let (_, cs) ← scanPlaces 2 0 59 (← expect ':' cs)
  let (_, cs) ← scanPlaces 2 0 60 (← expect ':' cs)
  return skipFraction cs

def skipShift (cs : List Char) : Option (List Char) := do
  let (_, cs) ← scanPlaces 2 0 23 cs
  let (_, cs) ← scanPlaces 2 0 59 (← expect ':' cs)
  return cs

/-- What follows the offset of a time, if there is one. -/
def skipOffset : List Char → List Char
  | [] => []
  | c :: cs =>
    if c == 'Z' || c == 'z' then cs
    else if c == '+' || c == '-' then (skipShift cs).getD (c :: cs)
    else c :: cs

/-- What follows a date, a date with a time, or a time. -/
def skipDate (cs : List Char) : Option (List Char) :=
  match skipDay cs with
  | none => skipTime cs
  | some [] => some []
  | some (c :: rest) =>
    if c == 'T' || c == 't' || c == ' ' then
      match skipTime rest with
      | some after => some (skipOffset after)
      | none => some (c :: rest)
    else some (c :: rest)

end RelQuery.Toml
