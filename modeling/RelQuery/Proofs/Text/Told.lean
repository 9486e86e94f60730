import Mathlib.Tactic
import RelQuery.Proofs.Text.Basic
import RelQuery.Text.Basic

/-!
# Elements that are told by their texts

An element is told by its text if no other text can be mistaken for it, whatever stands behind the
two.  What may stand behind a text is part of the notion: a name is told where no character follows
that could belong to it.

Lists of elements that are told are told as well, if a separator stands between any two of them and
what stands behind the last one is neither a separator nor the start of an element.
-/

namespace RelQuery.Text

/-- Where a stop follows, an element of the class that has the text of `a` is `a`, and what follows
is the same. -/
def Told {α : Type} (P : α → Prop) (spell : α → List Char) (Stop : List Char → Prop) (a : α) :
    Prop :=
  ∀ ⦃b r s⦄, P b → Stop r → Stop s → spell a ++ r = spell b ++ s → a = b ∧ r = s

/-! ## Rows of characters of a class -/

/-- Characters that do not start with one of a class. -/
def Ends (p : Char → Bool) (cs : List Char) : Prop :=
  ∀ c ∈ cs.head?, p c = false

section Ends

variable {p q : Char → Bool} {c : Char} {cs xs ys r s : List Char}

@[simp] theorem ends_nil : Ends p [] := by
  simp [Ends]

@[simp] theorem ends_cons : Ends p (c :: cs) ↔ p c = false := by
  simp [Ends]

theorem Ends.mono (h : Ends p cs) (hpq : ∀ c, q c = true → p c = true) : Ends q cs := by
  intro c hc
  by_contra hq
  have hp := hpq c (by simpa using hq)
  rw [h c hc] at hp
  cases hp

theorem takeWhile_of_ends (hxs : ∀ c ∈ xs, p c = true) (hr : Ends p r) :
    (xs ++ r).takeWhile p = xs := by
  rw [List.takeWhile_append_of_pos hxs]
  cases r with
  | nil => simp
  | cons c r => simp [ends_cons.mp hr]

/-- A row of characters of a class is told where none of them follows. -/
theorem append_inj_of_ends (hxs : ∀ c ∈ xs, p c = true) (hys : ∀ c ∈ ys, p c = true)
    (hr : Ends p r) (hs : Ends p s) (h : xs ++ r = ys ++ s) : xs = ys ∧ r = s := by
  have hrow : xs = ys := by
    rw [← takeWhile_of_ends hxs hr, h, takeWhile_of_ends hys hs]
  subst hrow
  exact ⟨rfl, List.append_cancel_left h⟩

end Ends

/-- A name as a program may use it. -/
def IsName (name : String) : Prop :=
  isIdentifier name.toList = true

instance (name : String) : Decidable (IsName name) :=
  inferInstanceAs (Decidable (isIdentifier name.toList = true))

theorem IsName.chars {name : String} (h : IsName name) :
    ∀ c ∈ name.toList, isNameChar c = true := by
  unfold IsName isIdentifier at h
  rw [Bool.and_eq_true, List.all_eq_true] at h
  exact h.2

theorem IsName.exists_cons {name : String} (h : IsName name) :
    ∃ c cs, name.toList = c :: cs ∧ isNameStart c = true := by
  unfold IsName isIdentifier at h
  rw [Bool.and_eq_true] at h
  cases hlist : name.toList with
  | nil => simp [hlist] at h
  | cons c cs =>
      refine ⟨c, cs, rfl, ?_⟩
      simpa [hlist] using h.1

theorem IsName.told {name : String} (h : IsName name) :
    Told IsName String.toList (Ends isNameChar) name := by
  intro other r s hother hr hs heq
  obtain ⟨hlist, hrest⟩ := append_inj_of_ends h.chars hother.chars hr hs heq
  exact ⟨String.toList_inj.mp hlist, hrest⟩

/-- A number is written with digits and a minus sign. -/
theorem isDigit_of_mem_toString {n : Int} {c : Char} (h : c ∈ (toString n).toList) :
    isDigit c = true ∨ c = '-' := by
  rw [toList_toString] at h
  split at h
  · rcases List.mem_cons.mp h with rfl | h
    · exact .inr rfl
    · exact .inl (isDigit_of_mem_toDigits h)
  · exact .inl (isDigit_of_mem_toDigits h)

theorem told_int {p : Char → Bool} (hp : ∀ c, isDigit c = true ∨ c = '-' → p c = true) (n : Int) :
    Told (fun _ => True) (fun n : Int => (toString n).toList) (Ends p) n := by
  intro m r s _ hr hs heq
  obtain ⟨hlist, hrest⟩ := append_inj_of_ends (fun c hc => hp c (isDigit_of_mem_toString hc))
    (fun c hc => hp c (isDigit_of_mem_toString hc)) hr hs heq
  have hread := congrArg readInt? hlist
  rw [readInt?_toString, readInt?_toString] at hread
  exact ⟨Option.some.inj hread, hrest⟩

/-! ## Characters with escapes -/

/-- Characters with escapes are told up to the closing quote, if every escape is told and none starts
like the quote. -/
theorem escaped_append_inj {escape : Char → List Char} {quote : Char}
    (hinj : ∀ {c d r s}, escape c ++ r = escape d ++ s → c = d ∧ r = s)
    (hquote : ∀ c r s, escape c ++ r ≠ quote :: s) {cs ds r s : List Char}
    (h : cs.flatMap escape ++ quote :: r = ds.flatMap escape ++ quote :: s) :
    cs = ds ∧ r = s := by
  induction cs generalizing ds with
  | nil =>
      cases ds with
      | nil => simpa using h
      | cons d ds =>
          rw [List.flatMap_cons, List.append_assoc] at h
          exact absurd h.symm (hquote d _ _)
  | cons c cs ih =>
      rw [List.flatMap_cons, List.append_assoc] at h
      cases ds with
      | nil => exact absurd h (hquote c _ _)
      | cons d ds =>
          rw [List.flatMap_cons, List.append_assoc] at h
          obtain ⟨rfl, htail⟩ := hinj h
          obtain ⟨rfl, hrest⟩ := ih htail
          exact ⟨rfl, hrest⟩

/-! ## Lists -/

section Lists

variable {α : Type} {P : α → Prop} {spell : α → List Char} {Stop Last : List Char → Prop}
variable {sep : List Char}

/-- What stands behind the first of some elements. -/
def behindFirst (spell : α → List Char) (sep : List Char) (others : List α) (rest : List Char) :
    List Char :=
  match others with
  | [] => rest
  | _ => sep ++ (sep.intercalate (others.map spell) ++ rest)

theorem intercalate_cons_append (a : α) (others : List α) (rest : List Char) :
    sep.intercalate ((a :: others).map spell) ++ rest =
      spell a ++ behindFirst spell sep others rest := by
  cases others with
  | nil => simp [behindFirst]
  | cons b others => simp [behindFirst, List.intercalate_cons_cons]

/-- A list is told by the texts of its elements with separators between them. -/
theorem told_intercalate (hsep : ∀ r, Stop (sep ++ r)) (hlast : ∀ r, Last r → Stop r)
    (hdiffer : ∀ r, ¬ Last (sep ++ r)) (hstart : ∀ a r, P a → ¬ Last (spell a ++ r))
    {as : List α} (has : ∀ a ∈ as, P a) (htold : ∀ a ∈ as, Told P spell Stop a) :
    Told (fun as => ∀ a ∈ as, P a) (fun as => sep.intercalate (as.map spell)) Last as := by
  have hbehind : ∀ (others : List α) {rest : List Char}, Last rest →
      Stop (behindFirst spell sep others rest) := by
    intro others rest hrest
    cases others with
    | nil => exact hlast rest hrest
    | cons b others => exact hsep _
  induction as with
  | nil =>
      intro bs r s hbs hr hs heq
      cases bs with
      | nil => exact ⟨rfl, by simpa using heq⟩
      | cons b bs =>
          simp only [intercalate_cons_append] at heq
          have hr' : Last (spell b ++ behindFirst spell sep bs s) := by
            rw [← heq]
            simpa using hr
          exact absurd hr' (hstart b _ (hbs b List.mem_cons_self))
  | cons a as ih =>
      intro bs r s hbs hr hs heq
      rw [List.forall_mem_cons] at has htold
      cases bs with
      | nil =>
          simp only [intercalate_cons_append] at heq
          have hs' : Last (spell a ++ behindFirst spell sep as r) := by
            rw [heq]
            simpa using hs
          exact absurd hs' (hstart a _ has.1)
      | cons b bs =>
          rw [List.forall_mem_cons] at hbs
          simp only [intercalate_cons_append] at heq
          obtain ⟨rfl, hrest⟩ := htold.1 hbs.1 (hbehind as hr) (hbehind bs hs) heq
          cases as with
          | nil =>
              cases bs with
              | nil => exact ⟨rfl, hrest⟩
              | cons b bs => exact absurd hr (by rw [show r = _ from hrest]; exact hdiffer _)
          | cons a' as =>
              cases bs with
              | nil => exact absurd hs (by rw [show s = _ from hrest.symm]; exact hdiffer _)
              | cons b' bs =>
                  obtain ⟨hothers, hrest⟩ :=
                    ih has.2 htold.2 hbs.2 hr hs (List.append_cancel_left hrest)
                  exact ⟨by rw [hothers], hrest⟩

end Lists

end RelQuery.Text
