import RelQuery.Text.Quoted

/-!
# Places and pieces of a source text

A span names the piece of a source text between two byte offsets.  A node of an expression that was
not read from a text has the empty span of the empty text.  A position is a byte offset together with
its line and column.  Lines and columns count from one, and columns count characters.
-/

namespace RelQuery

/-- The piece of `source` from byte `start` up to byte `stop`. -/
structure Span where
  source : String
  start : Nat
  stop : Nat
  deriving DecidableEq, Repr

namespace Span

/-- The span of something that was not read from a text. -/
def synthetic : Span := ⟨"", 0, 0⟩

/-- The piece of text; empty when the offsets do not cut the source between characters. -/
def text (span : Span) : String :=
  match Text.sliceBytes? span.start span.stop span.source.toList with
  | some cs => String.ofList cs
  | none => ""

def render (span : Span) : String :=
  s!"{span.start}..{span.stop} {Text.quoteString span.text}"

end Span

structure Position where
  offset : Nat
  line : Nat
  column : Nat
  deriving DecidableEq, Repr

namespace Position

/-- The position reached after reading the characters `before`, at byte `offset`. -/
def after (offset : Nat) (before : List Char) : Position where
  offset := offset
  line := before.count '\n' + 1
  column := (before.reverse.takeWhile (· ≠ '\n')).length + 1

/-- The position of a byte offset.  An offset beyond the end counts as the end; one inside a
character keeps its value, with the line and column of the end. -/
def locate (source : String) (offset : Nat) : Position :=
  let within := min offset source.utf8ByteSize
  after within ((Text.takeBytes? within source.toList).getD source.toList)

end Position

end RelQuery
