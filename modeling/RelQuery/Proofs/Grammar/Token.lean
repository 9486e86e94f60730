import RelQuery.Proofs.Grammar.Direct
import RelQuery.Proofs.Text.Basic

/-!
# Tokens and their spelling

A query is spelled as a row of tokens with one blank between any two.  Texts may be quoted in any
way that the grammar allows.
-/

namespace RelQuery.Grammar

open Text (isNameStart isNameChar isDigit isDigit_of_mem_toDigits)

/-! ## Quoted texts -/

/-- The character that a backslash and a given character stand for. -/
def escaped : Char → Char
  | 'n' => '\n'
  | 't' => '\t'
  | 'r' => '\r'
  | c => c

/-- `Escapes quote value body` says that `body` spells `value` between two `quote` characters. -/
inductive Escapes (quote : Char) : List Char → List Char → Prop where
  | nil : Escapes quote [] []
  | plain {c : Char} {value body : List Char} (hquote : c ≠ quote) (hbackslash : c ≠ '\\')
      (h : Escapes quote value body) : Escapes quote (c :: value) (c :: body)
  | backslash (c : Char) {value body : List Char} (h : Escapes quote value body) :
      Escapes quote (escaped c :: value) ('\\' :: c :: body)

structure Quoting where
  quote : String → Char
  body : String → List Char
  quote_eq : ∀ value, quote value = '\x27' ∨ quote value = '"'
  escapes : ∀ value, Escapes (quote value) value.toList (body value)

theorem unescape_backslash (c : Char) (cs : List Char) :
    unescape ('\\' :: c :: cs) = escaped c :: unescape cs := by
  unfold escaped
  split <;> simp_all [unescape]

theorem unescape_of_escapes {quote : Char} {value body : List Char}
    (h : Escapes quote value body) : unescape body = value := by
  induction h with
  | nil => rfl
  | plain hquote hbackslash h ih =>
      rw [unescape]
      · rw [ih]
      all_goals simp_all
  | backslash c h ih => rw [unescape_backslash, ih]

theorem scanQuotedBody_of_escapes {quote : Char} {value body : List Char}
    (h : Escapes quote value body) (hquote : quote ≠ '\\') (rest : List Char) :
    scanQuotedBody quote (body ++ quote :: rest) = (body, quote :: rest) := by
  induction h with
  | nil =>
      rw [List.nil_append, scanQuotedBody]
      · simp
      · simp_all
  | plain hplain hbackslash h ih =>
      rw [List.cons_append, scanQuotedBody]
      · simp [hplain, hbackslash, ih]
      · simp_all
  | backslash c h ih =>
      rw [List.cons_append, List.cons_append, scanQuotedBody, ih]

/-- A text between double quotes, where quotes and backslashes are escaped. -/
def Quoting.double : Quoting where
  quote _ := '"'
  body value := value.toList.flatMap fun c => if c = '"' ∨ c = '\\' then ['\\', c] else [c]
  quote_eq _ := .inr rfl
  escapes value := by
    induction value.toList with
    | nil => exact .nil
    | cons c cs ih =>
        by_cases hspecial : c = '"' ∨ c = '\\'
        · have hescaped : escaped c = c := by
            rcases hspecial with rfl | rfl <;> rfl
          have hstep := Escapes.backslash c ih
          rw [hescaped] at hstep
          simpa [hspecial] using hstep
        · have hstep := Escapes.plain (fun h => hspecial (.inl h)) (fun h => hspecial (.inr h)) ih
          simpa [hspecial] using hstep

/-! ## Tokens -/

inductive Sign where
  | openParen
  | closeParen
  | openBracket
  | closeBracket
  | bar
  | arrow
  | colon
  | equal
  | unequal
  | less
  | greater
  | atMost
  | atLeast
  | semicolon
  | ampersand
  | minus
  | comma
  | plus
  | star
  | hash
  | dot
  | domain
  | range
  | caret
  | tilde
  deriving DecidableEq, Repr

def Sign.chars : Sign → List Char
  | .openParen => ['(']
  | .closeParen => [')']
  | .openBracket => ['[']
  | .closeBracket => [']']
  | .bar => ['|']
  | .arrow => ['-', '>']
  | .colon => [':']
  | .equal => ['=']
  | .unequal => ['!', '=']
  | .less => ['<']
  | .greater => ['>']
  | .atMost => ['<', '=']
  | .atLeast => ['>', '=']
  | .semicolon => [';']
  | .ampersand => ['&']
  | .minus => ['-']
  | .comma => [',']
  | .plus => ['+']
  | .star => ['*']
  | .hash => ['#']
  | .dot => ['.']
  | .domain => ['<', ':']
  | .range => [':', '>']
  | .caret => ['^']
  | .tilde => ['~']

inductive Token where
  | number (value : Nat)
  | text (value : String)
  | formula (text : String)
  | name (name : String)
  | keyword (word : Keyword)
  | sign (sign : Sign)
  deriving DecidableEq, Repr

/-- An identifier that is no keyword. -/
def IsName (name : String) : Prop :=
  Text.isIdentifier name.toList = true ∧ isKeyword name.toList = false

instance (name : String) : Decidable (IsName name) :=
  inferInstanceAs (Decidable (_ ∧ _))

/-- A formula can stand between backticks, and reading it takes nothing off its ends. -/
def IsFormula (text : String) : Prop :=
  '\x60' ∉ text.toList ∧ Text.trimBlanks text.toList = text.toList

instance (text : String) : Decidable (IsFormula text) :=
  inferInstanceAs (Decidable (_ ∧ _))

/-- Tokens that the grammar can read. -/
def Token.Valid : Token → Prop
  | .name x => IsName x
  | .formula f => IsFormula f
  | _ => True

variable (q : Quoting)

def Token.chars : Token → List Char
  | .number value => Nat.toDigits 10 value
  | .text value => q.quote value :: q.body value ++ [q.quote value]
  | .formula f => '\x60' :: f.toList ++ ['\x60']
  | .name x => x.toList
  | .keyword word => word.text.toList
  | .sign s => s.chars

/-- Tokens with a blank before each. -/
def trailing : List Token → List Char
  | [] => []
  | t :: ts => ' ' :: (t.chars q ++ trailing ts)

/-- Tokens with a blank between any two. -/
def spell : List Token → List Char
  | [] => []
  | t :: ts => t.chars q ++ trailing q ts

end RelQuery.Grammar
