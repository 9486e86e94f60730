import RelQuery.Grammar.Expectation
import RelQuery.Text.Basic

/-!
# Parsers

A parser reads from a place in the source.  It either fails or gives a value and the place where
it stopped; in both cases it tells which grammar rules it visited.  Whether and what a parser reads
does not depend on the visits.
-/

namespace RelQuery.Grammar

/-- A place in the source: the characters still to read and the byte offset of the first. -/
structure Cursor where
  rest : List Char
  offset : Nat
  deriving DecidableEq, Repr

/-- The place after the characters `taken`, which leave `rest`. -/
def Cursor.advance (cursor : Cursor) (taken rest : List Char) : Cursor :=
  ⟨rest, cursor.offset + Text.byteLength taken⟩

structure Outcome (α : Type) where
  value : Option (α × Cursor)
  visits : List Visit

def Parser (α : Type) : Type :=
  Cursor → Outcome α

namespace Parser

variable {α β : Type}

def succeed (value : α) : Parser α := fun cursor =>
  ⟨some (value, cursor), []⟩

def fail : Parser α := fun _ =>
  ⟨none, []⟩

def andThen (first : Parser α) (next : α → Parser β) : Parser β := fun cursor =>
  let found := first cursor
  match found.value with
  | none => ⟨none, found.visits⟩
  | some (value, after) =>
    let rest := next value after
    ⟨rest.value, found.visits ++ rest.visits⟩

/-- Reads the second construct where the first does not match. -/
def orElse (first second : Parser α) : Parser α := fun cursor =>
  let found := first cursor
  match found.value with
  | some result => ⟨some result, found.visits⟩
  | none =>
    let other := second cursor
    ⟨other.value, found.visits ++ other.visits⟩

instance : Monad Parser where
  pure := succeed
  bind := andThen

instance : OrElse (Parser α) where
  orElse first second := first.orElse (second ())

def maybe (parser : Parser α) : Parser (Option α) :=
  (parser.andThen fun value => succeed (some value)).orElse (succeed none)

/-- The offset of the place where it is asked. -/
def here : Parser Nat := fun cursor =>
  ⟨some (cursor.offset, cursor), []⟩

/-- Reads by a rule of the grammar, and leaves a visit of it. -/
def rule (expectation : Expectation) (parser : Parser α) : Parser α := fun cursor =>
  let found := parser cursor
  ⟨found.value, [.node expectation cursor.offset found.value.isSome found.visits]⟩

/-- Reads what `scan` splits off the characters to come, and leaves no visit. -/
def scanning (scan : List Char → Option (List Char × List Char)) : Parser (List Char) :=
  fun cursor =>
    match scan cursor.rest with
    | some (taken, rest) => ⟨some (taken, cursor.advance taken rest), []⟩
    | none => ⟨none, []⟩

/-- Reads exactly the given text, and leaves no visit. -/
def symbol (text : String) : Parser Unit :=
  (scanning fun cs => (text.toList.isPrefixOf? cs).map fun rest => (text.toList, rest)).andThen
    fun _ => succeed ()

end Parser

def isLayout (c : Char) : Bool :=
  c == ' ' || c == '\t' || c == '\r' || c == '\n'

/-- The place after layout characters and line comments; `inComment` tells that the characters to
come are those of a comment, up to the end of the line. -/
def skipLayout : Bool → Nat → List Char → Cursor
  | _, offset, [] => ⟨[], offset⟩
  | true, offset, c :: cs => skipLayout (c ≠ '\n') (offset + c.utf8Size) cs
  | false, offset, '/' :: '/' :: cs => skipLayout true (offset + 2) cs
  | false, offset, c :: cs =>
    if isLayout c then skipLayout false (offset + 1) cs else ⟨c :: cs, offset⟩

namespace Parser

variable {α : Type}

/-- Passes over layout and comments. -/
def layout : Parser Unit := fun cursor =>
  ⟨some ((), skipLayout false cursor.offset cursor.rest), []⟩

/-- Reads further items for as long as they come, each after layout.  The layout before an item
that does not come is not read. -/
def further (item : Parser α) : Nat → Parser (List α)
  | 0 => succeed []
  | fuel + 1 =>
    (layout.andThen fun _ => item.andThen fun first =>
      (further item fuel).andThen fun rest => succeed (first :: rest)).orElse (succeed [])

/-- Reads all further items.  An item takes at least one character, so there are no more items than
characters. -/
def allFurther (item : Parser α) : Parser (List α) := fun cursor =>
  further item cursor.rest.length cursor

/-- Passes over layout and reads items for as long as they come, with layout between them. -/
def items (item : Parser α) : Parser (List α) :=
  layout.andThen fun _ =>
    (item.andThen fun first =>
      (allFurther item).andThen fun rest => succeed (first :: rest)).orElse (succeed [])

end Parser

end RelQuery.Grammar
