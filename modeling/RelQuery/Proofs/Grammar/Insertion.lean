import RelQuery.Proofs.Grammar.Lexemes

/-!
# Layout is irrelevant

Blanks and comments can be put between any two lexemes of a source: the lexemes stay the same tokens,
and so the same expression is read.  A boundary is a place in front of, between or behind the lexemes
that is not inside of a comment.
-/

namespace RelQuery

namespace Grammar

/-! ## Layout at a place -/

section Layout

variable {start mid stop : Bool} {w w' : List Char}

/-- What stands behind some layout, and is layout together with it, goes on from where it stopped. -/
theorem Layout.of_append (h : Layout start mid w) (h' : Layout start stop (w ++ w')) :
    Layout mid stop w' := by
  induction h with
  | nil => exact h'
  | @blank mid c w hc _ ih =>
      rw [List.cons_append] at h'
      generalize hrest : w ++ w' = rest at h'
      cases h' with
      | blank _ h' => exact ih (hrest ▸ h')
      | opening h' => cases hc
  | opening _ ih =>
      cases h' with
      | blank hc _ => cases hc
      | opening h' => exact ih h'
  | inside hc _ ih =>
      cases h' with
      | inside _ h' => exact ih h'
      | closing h' => exact absurd rfl hc
  | closing _ ih =>
      cases h' with
      | inside hc _ => exact absurd rfl hc
      | closing h' => exact ih h'

/-- Layout is layout inside of a comment too. -/
theorem Layout.exists_fromComment (h : Layout start stop w) : ∃ stop', Layout true stop' w := by
  induction h with
  | nil => exact ⟨true, .nil⟩
  | @blank stop c w hc h ih =>
      by_cases hline : c = '\n'
      · subst hline
        exact ⟨stop, .closing h⟩
      · obtain ⟨stop', h'⟩ := ih
        exact ⟨stop', .inside hline h'⟩
  | @opening stop w h _ => exact ⟨stop, .inside (by decide) (.inside (by decide) h)⟩
  | @inside stop c w hc h _ => exact ⟨stop, .inside hc h⟩
  | @closing stop w h _ => exact ⟨stop, .closing h⟩

theorem Layout.head (h : Layout false stop w) {rest : List Char} (hne : w ≠ []) {c : Char}
    (hc : c ∈ (w ++ rest).head?) : c ∈ [' ', '\t', '\r', '\n', '/'] := by
  cases h with
  | nil => exact absurd rfl hne
  | blank hlayout _ =>
      cases hc
      rcases isLayout_iff.mp hlayout with rfl | rfl | rfl | rfl <;> decide
  | opening _ =>
      cases hc
      decide

end Layout

section Spelled

variable {t : Token} {cs filler before after : List Char}

/-- A token ends where layout follows. -/
theorem Token.Spelled.of_layout (h : t.Spelled cs after) (hfiller : Layout false false filler)
    (hne : filler ≠ []) (rest : List Char) : t.Spelled cs (filler ++ rest) := by
  have hmark : ∀ c ∈ (filler ++ rest).head?, c ∈ [' ', '\t', '\r', '\n', '/'] :=
    fun c => hfiller.head hne
  have hword : ∀ c ∈ (filler ++ rest).head?, Text.isNameChar c = false :=
    fun c => isNameChar_of_layout hfiller hne
  cases t with
  | number n => exact ⟨h.1, h.2.1, h.2.2.1, fun c hc => isDigit_eq_false (hword c hc)⟩
  | text value | formula f => exact h
  | name x => exact ⟨h.1, h.2.1, hword⟩
  | keyword word => exact h.imp_left fun h => ⟨h.1, hword⟩
  | sign s =>
      refine ⟨h.1, fun c hc hlong => ?_⟩
      have hlast : c ∈ ['=', ':', '>', '>', '<'] := by
        have hmem := List.mem_map_of_mem (f := List.getLast?) hlong
        simpa [longSigns] using hmem
      have hapart : ∀ c ∈ [' ', '\t', '\r', '\n', '/'], c ∉ ['=', ':', '>', '>', '<'] := by simp
      exact hapart c (hmark c hc) hlast

theorem Token.Spelled.insert (h : t.Spelled cs (before ++ after))
    (hfiller : Layout false false filler) : t.Spelled cs (before ++ (filler ++ after)) := by
  cases before with
  | cons c before => exact h.of_head? fun d hd => hd
  | nil =>
      by_cases hne : filler = []
      · rw [hne]
        exact h
      · exact h.of_layout hfiller hne after

end Spelled

/-! ## Boundaries -/

/-- `Boundary row last before after` says that the place between `before` and `after`, in the text of
some lexemes with layout behind them, lies in layout and outside of comments.  Behind a comment that
the end of the source ends there is such a place. -/
inductive Boundary : List Lexeme → List Char → List Char → List Char → Prop where
  | last {stop : Bool} {w w' : List Char} (hw : Layout false stop w) (hstop : stop = true → w' = []) :
      Boundary [] (w ++ w') w w'
  | gap {t : Token} {row : List Lexeme} {last w w' cs : List Char} (hw : Layout false false w) :
      Boundary (⟨w ++ w', t, cs⟩ :: row) last w (w' ++ (cs ++ rowText row last))
  | later {l : Lexeme} {row : List Lexeme} {last before after : List Char}
      (h : Boundary row last before after) : Boundary (l :: row) last (l.text ++ before) after

section Boundary

variable {row : List Lexeme} {last before after filler : List Char}

theorem Boundary.text_eq (h : Boundary row last before after) :
    before ++ after = rowText row last := by
  induction h with
  | last => rfl
  | gap => simp
  | later _ ih => simp [Lexeme.text, ih]

/-- Lexemes of the same tokens, with other layout between them. -/
def Relaid (row : List Lexeme) (text : List Char) : Prop :=
  ∃ row' last', Cut row' last' [] ∧ row'.map Lexeme.token = row.map Lexeme.token ∧
    rowText row' last' = text

theorem Cut.insert (h : Cut row last []) (hboundary : Boundary row last before after)
    (hfiller : Layout false false filler) : Relaid row (before ++ (filler ++ after)) := by
  generalize hrest : ([] : List Char) = rest at h
  induction h generalizing before after with
  | last hlast _ =>
      cases hboundary with
      | @last stop w w' hw hstop =>
          cases stop with
          | false =>
              have hnew := hw.append (hfiller.append (hw.of_append hlast))
              exact ⟨[], _, .last hnew fun _ => rfl, rfl, rfl⟩
          | true =>
              obtain rfl := hstop rfl
              obtain ⟨stop', hcomment⟩ := hfiller.exists_fromComment
              refine ⟨[], _, .last (hw.append hcomment) fun _ => rfl, rfl, ?_⟩
              simp
  | @token l row last rest hgap ht h ih =>
      subst hrest
      cases hboundary with
      | @gap t _ _ w w' cs hw =>
          have hnew := hw.append (hfiller.append (hw.of_append hgap))
          exact ⟨⟨_, t, cs⟩ :: row, last, .token hnew ht h, rfl, by simp⟩
      | later hboundary =>
          obtain ⟨row', last', hcut, htokens, htext⟩ := ih hboundary rfl
          refine ⟨l :: row', last', .token hgap ?_ hcut, by simp [htokens],
            by simp [Lexeme.text, htext]⟩
          rw [htext, List.append_nil]
          rw [← hboundary.text_eq, List.append_nil] at ht
          exact ht.insert hfiller
  | @binding x row w₀ w₁ w₂ w rest h₀ h₁ hne hx h₂ h ih =>
      subst hrest
      cases hboundary with
      | @gap _ _ _ u u' _ hu =>
          have hnew := hu.append (hfiller.append (hu.of_append h₀))
          exact ⟨_, w, .binding hnew h₁ hne hx h₂ h, rfl, by simp⟩
      | later hboundary =>
          cases hboundary with
          | @gap _ _ _ u u' _ hu =>
              have hnew := hu.append (hfiller.append (hu.of_append h₁))
              refine ⟨_, w, .binding h₀ hnew ?_ hx h₂ h, rfl, by simp [Lexeme.text]⟩
              intro hnil
              simp only [List.append_eq_nil_iff] at hnil
              simp [hnil] at hne
          | later hboundary =>
              cases hboundary with
              | @gap _ _ _ u u' _ hu =>
                  have hnew := hu.append (hfiller.append (hu.of_append h₂))
                  exact ⟨_, w, .binding h₀ h₁ hne hx hnew h, rfl, by simp [Lexeme.text]⟩
              | later hboundary =>
                  obtain ⟨row', last', hcut, htokens, htext⟩ := ih hboundary rfl
                  exact ⟨_, last', .binding h₀ h₁ hne hx h₂ hcut, by simp [htokens],
                    by simp [Lexeme.text, htext]⟩

end Boundary

end Grammar

open Grammar

/-- Layout is irrelevant: blanks and comments at a boundary of a source do not change what is read, up
to spans. -/
theorem parse_insert_layout {source : String} {e : Expr} (h : Expr.parse source = .ok e) :
    (∃ m : Match source, m.tree = e) ∧ ∀ (m : Match source) (before filler after : List Char),
      Boundary m.lexemes m.last before after → Layout false false filler →
        ∃ found, Expr.parse (String.ofList (before ++ (filler ++ after))) = .ok found ∧
          found.strip = e.strip := by
  obtain ⟨⟨next, hrun⟩, hfits⟩ := parse_eq_ok_iff.mp h
  refine ⟨exists_match_of_run hrun, fun m before filler after hboundary hfiller => ?_⟩
  obtain ⟨_, _, hrun', hstrip⟩ := m.run
  rw [hrun] at hrun'
  cases hrun'
  obtain ⟨row, last, hcut, htokens, htext⟩ := m.cut.insert hboundary hfiller
  have hwritten : Written (m.lexemes.map Lexeme.token)
      (String.ofList (before ++ (filler ++ after))).toList [] := by
    rw [String.toList_ofList, ← htext, ← htokens]
    exact hcut.written
  have htree : m.tree.nodes.any Expr.isOversized = false := by
    rw [← any_isOversized_strip, ← hstrip, any_isOversized_strip, hfits]
  obtain ⟨found, hfound, hsame⟩ := exists_parse hwritten m.derives htree
  exact ⟨found, hfound, by rw [hsame, hstrip]⟩

namespace Sample

/-- A binding whose sign touches an angle bracket, with a comment that the end of the source ends. -/
def touchingSource : String :=
  "let r=<p>|r//end"

def touchingMatch : Match touchingSource where
  lexemes := [⟨[], .keyword .binding, ['l', 'e', 't']⟩, ⟨[' '], .name "r", ['r']⟩,
    ⟨[], .sign .equal, ['=']⟩, ⟨[], .sign .less, ['<']⟩, ⟨[], .name "p", ['p']⟩,
    ⟨[], .sign .greater, ['>']⟩, ⟨[], .sign .bar, ['|']⟩, ⟨[], .name "r", ['r']⟩]
  last := "//end".toList
  tree := .letIn "r" (propertyOf (.name "p" .synthetic) .synthetic) (.name "r" .synthetic) .synthetic
  cut := by
    have hspace : Layout false false [' '] := .blank rfl .nil
    have hcomment : Layout false true "//end".toList :=
      .opening (.inside (by decide) (.inside (by decide) (.inside (by decide) .nil)))
    refine .binding .nil hspace (by simp) (by decide) .nil ?_
    refine .token .nil (by simp [Token.Spelled, Sign.chars, longSigns]) ?_
    refine .token .nil (by simp [Token.Spelled]; decide) ?_
    refine .token .nil (by simp [Token.Spelled, Sign.chars, longSigns]) ?_
    refine .token .nil (by simp [Token.Spelled, Sign.chars, longSigns]) ?_
    refine .token .nil (by simp [Token.Spelled]; decide) ?_
    exact .last hcomment fun _ => rfl
  text_eq := by decide
  derives := by
    have hvalue : Derives .union (propertyOf (.name "p" .synthetic) .synthetic) _ :=
      Derives.property.loosen (by decide)
    have hbody : Derives .binding (.name "r" .synthetic) _ := Derives.name.loosen (by decide)
    exact .letIn hvalue hbody

end Sample

theorem sample_insert_layout :
    ∃ e, Expr.parse Sample.touchingSource = .ok e ∧
      Boundary Sample.touchingMatch.lexemes Sample.touchingMatch.last "let r=".toList
        "<p>|r//end".toList ∧ Layout false false " //a\n\t".toList ∧
      ∃ found, Expr.parse "let r= //a\n\t<p>|r//end" = .ok found ∧ found.strip = e.strip := by
  have hparse : (Expr.parse Sample.touchingSource).toOption.isSome = true := by decide +kernel
  have hboundary : Boundary Sample.touchingMatch.lexemes Sample.touchingMatch.last "let r=".toList
      "<p>|r//end".toList :=
    .later (.later (.later (.gap (w := []) .nil)))
  have hfiller : Layout false false " //a\n\t".toList :=
    .blank rfl (.opening (.inside (by decide) (.closing (.blank rfl .nil))))
  have htext : String.ofList ("let r=".toList ++ (" //a\n\t".toList ++ "<p>|r//end".toList)) =
      "let r= //a\n\t<p>|r//end" := by decide
  cases h : Expr.parse Sample.touchingSource with
  | error err => simp [h, Except.toOption] at hparse
  | ok e =>
      have hfound := (parse_insert_layout h).2 Sample.touchingMatch _ _ _ hboundary hfiller
      rw [htext] at hfound
      exact ⟨e, rfl, hboundary, hfiller, hfound⟩

end RelQuery
