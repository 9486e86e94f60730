import RelQuery.Proofs.Grammar.Quotation

/-!
# Lexemes of a source

A source that the grammar accepts is cut into lexemes: tokens with the layout in front of them and the
characters that spell them.  A match of a source is such a cut together with an expression that the
grammar derives from the tokens; a source can be read exactly if it has a match.
-/

namespace RelQuery.Grammar

open RelQuery.Grammar.Parser

/-- A token with the layout in front of it and the characters that spell it. -/
structure Lexeme where
  gap : List Char
  token : Token
  chars : List Char
  deriving DecidableEq, Repr

def Lexeme.text (l : Lexeme) : List Char :=
  l.gap ++ l.chars

/-- The characters of lexemes with some layout behind them. -/
def rowText (row : List Lexeme) (last : List Char) : List Char :=
  row.flatMap Lexeme.text ++ last

@[simp] theorem rowText_nil (last : List Char) : rowText [] last = last :=
  rfl

@[simp] theorem rowText_cons (l : Lexeme) (row : List Lexeme) (last : List Char) :
    rowText (l :: row) last = l.gap ++ (l.chars ++ rowText row last) := by
  simp [rowText, Lexeme.text]

/-- `Cut row last rest` says that the lexemes, with the layout `last` behind them, can be read in front
of `rest`.  In the head of a binding the sign is read alone, whatever follows. -/
inductive Cut : List Lexeme → List Char → List Char → Prop where
  | last {stop : Bool} {w rest : List Char} (hw : Layout false stop w)
      (hstop : stop = true → rest = []) : Cut [] w rest
  | token {l : Lexeme} {row : List Lexeme} {w rest : List Char} (hgap : Layout false false l.gap)
      (ht : l.token.Spelled l.chars (rowText row w ++ rest)) (h : Cut row w rest) :
      Cut (l :: row) w rest
  | binding {x : String} {row : List Lexeme} {w₀ w₁ w₂ w rest : List Char}
      (h₀ : Layout false false w₀) (h₁ : Layout false false w₁) (hne : w₁ ≠ []) (hx : IsName x)
      (h₂ : Layout false false w₂) (h : Cut row w rest) :
      Cut (⟨w₀, .keyword .binding, Keyword.binding.text.toList⟩ :: ⟨w₁, .name x, x.toList⟩ ::
        ⟨w₂, .sign .equal, ['=']⟩ :: row) w rest

section Cut

variable {row : List Lexeme} {w rest : List Char}

theorem Cut.written (h : Cut row w rest) : Written (row.map Lexeme.token) (rowText row w) rest := by
  induction h with
  | last hw hstop => exact .layout hw hstop
  | token hgap ht _ ih =>
      rw [rowText_cons]
      exact .token hgap ht ih
  | binding h₀ h₁ hne hx h₂ _ ih =>
      simp only [rowText_cons, List.cons_append, List.nil_append]
      exact .binding h₀ h₁ hne hx h₂ ih

theorem Written.exists_cut {ts : List Token} {u : List Char} (h : Written ts u rest) :
    ∃ row w, Cut row w rest ∧ rowText row w = u ∧ row.map Lexeme.token = ts := by
  induction h with
  | layout hw hstop => exact ⟨[], _, .last hw hstop, rfl, rfl⟩
  | @token t ts w cs u rest hw ht _ ih =>
      obtain ⟨row, last, hcut, rfl, rfl⟩ := ih
      exact ⟨⟨w, t, cs⟩ :: row, last, .token hw ht hcut, by simp, rfl⟩
  | binding h₀ h₁ hne hx h₂ _ ih =>
      obtain ⟨row, last, hcut, rfl, rfl⟩ := ih
      exact ⟨_, last, .binding h₀ h₁ hne hx h₂ hcut, by simp, rfl⟩

end Cut

/-- A source cut into lexemes, from whose tokens the grammar derives an expression. -/
structure Match (source : String) where
  lexemes : List Lexeme
  last : List Char
  tree : Expr
  cut : Cut lexemes last []
  text_eq : rowText lexemes last = source.toList
  derives : Derives .binding tree (lexemes.map Lexeme.token)

section Match

variable {source : String}

theorem Match.written (m : Match source) :
    Written (m.lexemes.map Lexeme.token) source.toList [] := by
  rw [← m.text_eq]
  exact m.cut.written

theorem exists_match {ts : List Token} {e : Expr} (hwritten : Written ts source.toList [])
    (hderives : Derives .binding e ts) : ∃ m : Match source, m.tree = e := by
  obtain ⟨row, w, hcut, htext, rfl⟩ := hwritten.exists_cut
  exact ⟨⟨row, w, e, hcut, htext, hderives⟩, rfl⟩

theorem exists_match_of_run {e : Expr} {next : Cursor}
    (hrun : (query source ⟨source.toList, 0⟩).value = some (e, next)) :
    ∃ m : Match source, m.tree = e := by
  obtain ⟨ts, hwritten, hderives⟩ := (run_query hrun).1
  exact exists_match hwritten hderives

/-- Every match of a source gives the expression that is read, up to spans. -/
theorem Match.run (m : Match source) :
    ∃ e next, (query source ⟨source.toList, 0⟩).value = some (e, next) ∧
      e.strip = m.tree.strip := by
  obtain ⟨e, next, hrun, -, hstrip⟩ :=
    reads_query_of_derives m.derives m.written.length_le ⟨source.toList, 0⟩ m.written
  exact ⟨e, next, hrun, hstrip⟩

end Match

end RelQuery.Grammar
