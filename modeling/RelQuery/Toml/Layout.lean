/-!
# Layout of settings files

Blanks are spaces and tabs.  A line ends in a line feed, which may have a carriage return before it.
A comment runs from a number sign to the end of its line and holds no control characters but tabs.
-/

namespace RelQuery.Toml

def isBlank (c : Char) : Bool :=
  c == ' ' || c == '\t'

def skipBlank (cs : List Char) : List Char :=
  cs.dropWhile isBlank

/-- Whether a character may stand in a comment or a string as it is. -/
def isPlain (c : Char) : Bool :=
  c == '\t' || (decide (32 ≤ c.toNat) && c.toNat != 127)

/-- Drops a comment, but not the end of its line. -/
def skipComment : List Char → List Char
  | '#' :: cs => cs.dropWhile isPlain
  | cs => cs

def skipLineEnd : List Char → List Char
  | '\n' :: cs => cs
  | '\r' :: '\n' :: cs => cs
  | cs => cs

/-- Drops blanks, line ends and comments; `inComment` holds from a number sign to the end of its
line. -/
def skipLayout : Bool → List Char → List Char
  | _, [] => []
  | _, '\n' :: cs => skipLayout false cs
  | _, '\r' :: '\n' :: cs => skipLayout false cs
  | true, c :: cs => if isPlain c then skipLayout true cs else c :: cs
  | false, c :: cs =>
    if isBlank c then skipLayout false cs
    else if c == '#' then skipLayout true cs
    else c :: cs

/-- What follows the end of the line, which only blanks and a comment may precede. -/
def endLine? (cs : List Char) : Option (List Char) :=
  match skipComment (skipBlank cs) with
  | [] => some []
  | '\n' :: rest => some rest
  | '\r' :: '\n' :: rest => some rest
  | _ => none

end RelQuery.Toml
