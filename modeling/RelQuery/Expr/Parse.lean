import RelQuery.Expr.Build
import RelQuery.Source.Basic
import RelQuery.Text.Basic
import RelQuery.Text.Quoted

/-!
# Reading a query

A source is matched by the grammar, and an expression is built from the pairs that are left.  A
source that the grammar does not accept is reported at the furthest offset that a rule reached, with
all that would have been accepted there.  A source that the grammar accepts is refused only for a
number that does not fit in 32 bits; the leftmost one is reported.
-/

namespace RelQuery

/-- Why a source is no query. -/
structure SyntaxError where
  /-- What would have been accepted. -/
  expected : List String
  /-- What stands there instead. -/
  found : String
  start : Position
  stop : Position
  deriving DecidableEq, Repr

namespace SyntaxError

def foundAt (source : String) (offset : Nat) : String :=
  match (Text.dropBytes? offset source.toList).bind List.head? with
  | some c => Text.quoteChar c
  | none => "end of input"

/-- An error about the piece of source between two byte offsets. -/
def between (source : String) (start stop : Nat) (expected : List String) : SyntaxError where
  expected := expected
  found := foundAt source start
  start := .locate source start
  stop := .locate source stop

/-- The error of a source in which the given rules failed. -/
def ofAttempts (source : String) (attempts : Grammar.Attempts) : SyntaxError :=
  between source attempts.offset attempts.offset
    (Text.sortNames (attempts.failed.map (·.describe)))

def ofMalformed (source : String) (malformed : Grammar.Malformed) : SyntaxError :=
  between source malformed.start malformed.stop [malformed.fault.expected]

def alternatives : List String → String
  | [] => "nothing"
  | [only] => only
  | first :: rest =>
    ", ".intercalate (first :: rest).dropLast ++ " or " ++ (first :: rest).getLastD first

def message (error : SyntaxError) : String :=
  s!"Syntax error at line {error.start.line}, column {error.start.column}: expected "
    ++ alternatives error.expected ++ ", found " ++ error.found

end SyntaxError

namespace Expr

def parse (source : String) : Except SyntaxError Expr :=
  let found := Grammar.Pairs.query source ⟨source.toList, 0⟩
  match found.value with
  | none => .error (.ofAttempts source (Grammar.Attempts.none.recordAll found.visits))
  | some (pair, _) => (Grammar.buildQuery source [pair]).mapError (.ofMalformed source)

end Expr

end RelQuery
