import Mathlib.Data.List.DropRight
import RelQuery.Proofs.Grammar.Quotation
import RelQuery.Proofs.Typing.Judgement

/-!
# Names in sources

The names that an expression binds are tokens of its source, and a token that is a name is written
as an identifier that is no keyword.  A formula is read without the blanks at its ends.
-/

namespace RelQuery

namespace Text

theorem trimBlanks_idem (cs : List Char) : trimBlanks (trimBlanks cs) = trimBlanks cs := by
  have heq (l : List Char) : trimBlanks l = (l.dropWhile isBlank).rdropWhile isBlank := rfl
  have hfront : (trimBlanks cs).dropWhile isBlank = trimBlanks cs := by
    rw [List.dropWhile_eq_self_iff]
    intro hl hblank
    have hprefix := List.rdropWhile_prefix isBlank (cs.dropWhile isBlank)
    have hlong : 0 < (cs.dropWhile isBlank).length := Nat.lt_of_lt_of_le hl hprefix.length_le
    refine List.dropWhile_get_zero_not isBlank cs hlong ?_
    rw [List.get_eq_getElem, ← hprefix.getElem hl]
    exact hblank
  rw [heq (trimBlanks cs), hfront, heq, List.rdropWhile_idempotent]

theorem trimBlanks_subset (cs : List Char) : trimBlanks cs ⊆ cs := by
  intro c hc
  rw [trimBlanks, List.mem_reverse] at hc
  have hfront := List.mem_reverse.mp ((List.dropWhile_suffix _).subset hc)
  exact (List.dropWhile_suffix _).subset hfront

end Text

open Grammar

variable {x : String} {ts : List Token}

theorem Grammar.Token.Spelled.valid {t : Token} {cs rest : List Char} (h : t.Spelled cs rest) :
    t.Valid := by
  cases t with
  | name => exact h.1
  | formula =>
      obtain ⟨body, hbacktick, htrim, -⟩ := h
      rw [Token.Valid, IsFormula, ← htrim]
      exact ⟨fun hmem => hbacktick (Text.trimBlanks_subset body hmem), Text.trimBlanks_idem body⟩
  | number | text | keyword | sign => exact trivial

theorem Grammar.Written.valid {u v : List Char} (h : Written ts u v) : ∀ t ∈ ts, t.Valid := by
  induction h with
  | layout => simp
  | token _ ht _ ih => exact List.forall_mem_cons.mpr ⟨ht.valid, ih⟩
  | binding _ _ _ hname _ _ ih =>
      simp only [List.forall_mem_cons]
      exact ⟨trivial, hname, trivial, ih⟩

theorem name_mem_nameTokens {names : List String} (hx : x ∈ names) :
    .name x ∈ nameTokens names := by
  cases names with
  | nil => exact absurd hx List.not_mem_nil
  | cons first rest =>
      rcases List.mem_cons.mp hx with rfl | hx
      · exact List.mem_cons_self
      · exact List.mem_cons_of_mem _ (List.mem_flatMap.mpr ⟨x, hx, by simp⟩)

theorem Derives.name_mem_of_mem_binders {b : Band} {e : Expr} (h : Derives b e ts)
    (hx : x ∈ e.binders) : .name x ∈ ts := by
  induction h with
  | number | text | formula | name => exact absurd hx List.not_mem_nil
  | property =>
      unfold propertyOf at hx
      split at hx <;> exact absurd hx List.not_mem_nil
  | paren _ ih => exact List.mem_cons_of_mem _ (List.mem_append_left _ (ih hx))
  | tighter _ _ ih => exact ih hx
  | leading _ _ _ ih => exact List.mem_cons_of_mem _ (ih hx)
  | operand _ _ _ _ ihleft ihright =>
      rcases List.mem_append.mp hx with hx | hx
      · exact List.mem_append_left _ (ihleft hx)
      · exact List.mem_append_right _ (List.mem_cons_of_mem _ (ihright hx))
  | ignore _ ih => exact List.mem_append_left _ (ih hx)
  | apply _ _ _ ihleft ihright =>
      rcases List.mem_append.mp hx with hx | hx
      · exact List.mem_append_left _ (ihleft hx)
      · simp [ihright hx]
  | comprehension _ _ ihconstraint ihbody =>
      simp only [Expr.binders, List.mem_append] at hx
      rcases hx with hx | hx | hx
      · exact List.mem_append_left _ (name_mem_nameTokens hx)
      · simp [ihconstraint hx]
      · simp [ihbody hx]
  | letIn _ _ ihvalue ihbody =>
      simp only [Expr.binders, List.mem_cons, List.mem_append] at hx
      rcases hx with rfl | hx | hx
      · simp
      · simp [ihvalue hx]
      · simp [ihbody hx]

/-- The names that a parsed expression binds are names of the grammar. -/
theorem isName_of_mem_binders {source : String} {e : Expr} (h : Expr.parse source = .ok e) :
    ∀ x ∈ e.binders, IsName x := by
  obtain ⟨⟨next, hrun⟩, -⟩ := parse_eq_ok_iff.mp h
  obtain ⟨⟨ts, hwritten, hderives⟩, -⟩ := run_query hrun
  exact fun x hx => hwritten.valid _ (hderives.name_mem_of_mem_binders hx)

end RelQuery
