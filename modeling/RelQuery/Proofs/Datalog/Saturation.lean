import Mathlib.Data.String.Basic
import RelQuery.Proofs.Datalog.Safety

/-!
# The least set of bound variables

The rounds of `Rule.bound` come to an end, and what they end with is the least set that holds the
variables of the positive atoms and the results of the aggregates and that passes, over an equality,
from the variables of one side to a variable alone on the other.  A least set does not know the
order of the literals or the sides of an equality, so neither do the unbound variables.
-/

namespace RelQuery

/-! ## Sorted names -/

/-- Among ordered elements, dropping repetitions leaves no two that are equal. -/
theorem Text.pairwise_dropRepeats {α : Type} [DecidableEq α] {r : α → α → Prop}
    (hanti : ∀ x y, r x y → r y x → x = y) {xs : List α} (h : xs.Pairwise r) :
    (dropRepeats xs).Pairwise fun x y => r x y ∧ x ≠ y := by
  fun_induction dropRepeats xs with
  | case1 => exact .nil
  | case2 x => exact List.pairwise_singleton _ _
  | case3 x rest ih => exact ih (List.pairwise_cons.mp h).2
  | case4 x y rest hne ih =>
      obtain ⟨hx, hrest⟩ := List.pairwise_cons.mp h
      refine List.pairwise_cons.mpr ⟨fun z hz => ?_, ih hrest⟩
      rw [mem_dropRepeats] at hz
      refine ⟨hx z hz, ?_⟩
      rintro rfl
      rcases List.mem_cons.mp hz with rfl | hz
      · exact hne rfl
      · exact hne (hanti x y (hx y List.mem_cons_self) ((List.pairwise_cons.mp hrest).1 x hz))

theorem Text.pairwise_sortNames (names : List String) : (sortNames names).Pairwise (· < ·) := by
  have hsorted : (names.mergeSort fun a b => decide (a ≤ b)).Pairwise (· ≤ ·) := by
    have hmerge : (names.mergeSort fun a b => decide (a ≤ b)).Pairwise
        fun a b => decide (a ≤ b) = true :=
      List.pairwise_mergeSort (fun a b c => by simpa using String.le_trans)
        (fun a b => by simpa using String.le_total a b) names
    simpa using hmerge
  refine (pairwise_dropRepeats (fun x y => le_antisymm) hsorted).imp ?_
  rintro x y ⟨hle, hne⟩
  exact lt_of_le_of_ne hle hne

/-- Names that are sorted depend only on which names there are. -/
theorem Text.sortNames_congr {names others : List String} (h : ∀ x, x ∈ names ↔ x ∈ others) :
    sortNames names = sortNames others := by
  refine (pairwise_sortNames names).eq_of_mem_iff (pairwise_sortNames others) fun x => ?_
  rw [mem_sortNames, mem_sortNames, h]

namespace Datalog

/-! ## Parts of expressions -/

mutual

/-- An expression and all that it is made of. -/
def ScalarExpr.parts : ScalarExpr → List ScalarExpr
  | .term t => [.term t]
  | .binary op left right => .binary op left right :: (left.parts ++ right.parts)
  | .cat parts => .cat parts :: ScalarExpr.partsAll parts
  | .raw text => [.raw text]

def ScalarExpr.partsAll : List ScalarExpr → List ScalarExpr
  | [] => []
  | part :: rest => part.parts ++ ScalarExpr.partsAll rest

end

mutual

theorem ScalarExpr.mem_vars_iff {v : String} :
    ∀ e : ScalarExpr, v ∈ e.vars ↔ .term (.var v) ∈ e.parts
  | .term t => by cases t <;> simp [vars, parts, Term.var?]
  | .binary op left right => by simp [vars, parts, mem_vars_iff left, mem_vars_iff right]
  | .cat parts => by simp [vars, ScalarExpr.parts, mem_varsAll_iff parts]
  | .raw text => by simp [vars, parts]

theorem ScalarExpr.mem_varsAll_iff {v : String} :
    ∀ es : List ScalarExpr, v ∈ varsAll es ↔ .term (.var v) ∈ partsAll es
  | [] => by simp [varsAll, partsAll]
  | e :: es => by simp [varsAll, partsAll, mem_vars_iff e, mem_varsAll_iff es]

end

theorem Atom.mem_vars_iff {v : String} {atom : Atom} : v ∈ atom.vars ↔ .var v ∈ atom.args := by
  have hvar (t : Term) : t.var? = some v ↔ t = .var v := by
    cases t <;> simp [Term.var?]
  simp [vars, hvar]

/-! ## Closed sets of variables -/

namespace Rule

/-- A set that holds what the body of a rule binds by itself, and with all variables of one side of
an equality also a variable alone on the other side. -/
structure Closes (rule : Rule) (B : Set String) : Prop where
  positive : ∀ atom v, .positive atom ∈ rule.body → .var v ∈ atom.args → v ∈ B
  aggregate : ∀ a, .aggregate a ∈ rule.body → a.result ∈ B
  toLeft : ∀ v e, .constraint (.term (.var v)) .eq e ∈ rule.body →
    (∀ u, .term (.var u) ∈ e.parts → u ∈ B) → v ∈ B
  toRight : ∀ v e, .constraint e .eq (.term (.var v)) ∈ rule.body →
    (∀ u, .term (.var u) ∈ e.parts → u ∈ B) → v ∈ B

/-- The variables of the head, of the negated atoms and of the constraints. -/
inductive Needs (rule : Rule) (v : String) : Prop where
  | head (h : .var v ∈ rule.head.args)
  | negated {atom : Atom} (hl : .negated atom ∈ rule.body) (h : .var v ∈ atom.args)
  | left {left : ScalarExpr} {op : Comparison} {right : ScalarExpr}
      (hl : .constraint left op right ∈ rule.body) (h : .term (.var v) ∈ left.parts)
  | right {left : ScalarExpr} {op : Comparison} {right : ScalarExpr}
      (hl : .constraint left op right ∈ rule.body) (h : .term (.var v) ∈ right.parts)

end Rule

theorem Literal.mem_assignments_iff {l : Literal} {v : String} {sources : List String} :
    (v, sources) ∈ l.assignments ↔ ∃ e : ScalarExpr, sources = e.vars ∧
      (l = .constraint (.term (.var v)) .eq e ∨ l = .constraint e .eq (.term (.var v))) := by
  have hassign (target source : ScalarExpr) :
      assignment? target source = some (v, sources) ↔
        target = .term (.var v) ∧ sources = source.vars := by
    unfold assignment?
    split <;> simp_all [eq_comm]
  constructor
  · intro h
    unfold assignments at h
    split at h
    · next left right =>
        rw [List.mem_append, Option.mem_toList, Option.mem_toList, hassign, hassign] at h
        rcases h with ⟨rfl, hsources⟩ | ⟨rfl, hsources⟩
        · exact ⟨right, hsources, .inl rfl⟩
        · exact ⟨left, hsources, .inr rfl⟩
    · simp at h
  · rintro ⟨e, rfl, rfl | rfl⟩
    · simp [assignments, assignment?]
    · simp [assignments, assignment?]

namespace Rule

variable {rule : Rule} {v : String}

theorem mem_needed_iff : v ∈ rule.needed ↔ rule.Needs v := by
  rw [needed, List.mem_append, Atom.mem_vars_iff, List.mem_flatMap]
  constructor
  · rintro (hhead | ⟨l, hl, hv⟩)
    · exact .head hhead
    · cases l with
      | negated atom => exact .negated hl (Atom.mem_vars_iff.mp hv)
      | constraint left op right =>
          rcases List.mem_append.mp hv with hv | hv
          · exact .left hl ((ScalarExpr.mem_vars_iff left).mp hv)
          · exact .right hl ((ScalarExpr.mem_vars_iff right).mp hv)
      | _ => simp [Literal.needs] at hv
  · rintro (hhead | ⟨hl, hv⟩ | ⟨hl, hv⟩ | ⟨hl, hv⟩)
    · exact .inl hhead
    · exact .inr ⟨_, hl, Atom.mem_vars_iff.mpr hv⟩
    · exact .inr ⟨_, hl, List.mem_append_left _ ((ScalarExpr.mem_vars_iff _).mpr hv)⟩
    · exact .inr ⟨_, hl, List.mem_append_right _ ((ScalarExpr.mem_vars_iff _).mpr hv)⟩

/-- Closed sets in terms of what the literals bind and assign. -/
theorem closes_iff {B : Set String} :
    rule.Closes B ↔ (∀ v ∈ rule.body.flatMap Literal.binds, v ∈ B) ∧
      ∀ assignment ∈ rule.assignments, (∀ u ∈ assignment.2, u ∈ B) → assignment.1 ∈ B := by
  constructor
  · intro h
    refine ⟨fun v hv => ?_, fun ⟨v, sources⟩ hassign hsources => ?_⟩
    · obtain ⟨l, hl, hv⟩ := List.mem_flatMap.mp hv
      cases l with
      | positive atom => exact h.positive atom v hl (Atom.mem_vars_iff.mp hv)
      | aggregate a =>
          obtain rfl : v = a.result := List.mem_singleton.mp hv
          exact h.aggregate a hl
      | _ => simp [Literal.binds] at hv
    · obtain ⟨l, hl, hassign⟩ := List.mem_flatMap.mp hassign
      obtain ⟨e, rfl, rfl | rfl⟩ := Literal.mem_assignments_iff.mp hassign
      · exact h.toLeft v e hl fun u hu => hsources u ((ScalarExpr.mem_vars_iff e).mpr hu)
      · exact h.toRight v e hl fun u hu => hsources u ((ScalarExpr.mem_vars_iff e).mpr hu)
  · rintro ⟨hbinds, hassign⟩
    have hpass {l : Literal} {v : String} {e : ScalarExpr} (hl : l ∈ rule.body)
        (heq : l = .constraint (.term (.var v)) .eq e ∨ l = .constraint e .eq (.term (.var v)))
        (hsources : ∀ u, .term (.var u) ∈ e.parts → u ∈ B) : v ∈ B := by
      have hmem : (v, e.vars) ∈ rule.assignments :=
        List.mem_flatMap.mpr ⟨l, hl, Literal.mem_assignments_iff.mpr ⟨e, rfl, heq⟩⟩
      exact hassign _ hmem fun u hu => hsources u ((ScalarExpr.mem_vars_iff e).mp hu)
    refine ⟨fun atom v hl hv => ?_, fun a hl => ?_, fun v e hl => ?_, fun v e hl => ?_⟩
    · exact hbinds v (List.mem_flatMap.mpr ⟨_, hl, Atom.mem_vars_iff.mpr hv⟩)
    · exact hbinds _ (List.mem_flatMap.mpr ⟨_, hl, List.mem_singleton_self _⟩)
    · exact hpass hl (.inl rfl)
    · exact hpass hl (.inr rfl)

end Rule

/-! ## The end of the rounds -/

section Rounds

variable {assignments : List (String × List String)} {bound final : List String}

/-- Rounds that go on for as long as they bind a new variable end with `final`. -/
inductive Settles (assignments : List (String × List String)) :
    (bound final : List String) → Prop where
  | stop {bound : List String} (h : assignments.foldl absorb bound = bound) :
      Settles assignments bound bound
  | again {bound final : List String} (h : assignments.foldl absorb bound ≠ bound)
      (hrest : Settles assignments (assignments.foldl absorb bound) final) :
      Settles assignments bound final

theorem Settles.stable (h : Settles assignments bound final) :
    assignments.foldl absorb final = final := by
  induction h with
  | stop h => exact h
  | again _ _ ih => exact ih

/-- A round that changes anything binds the target of an assignment. -/
theorem exists_new_of_foldl_absorb_ne (h : assignments.foldl absorb bound ≠ bound) :
    ∃ assignment ∈ assignments, assignment.1 ∉ bound ∧
      assignment.1 ∈ assignments.foldl absorb bound := by
  induction assignments generalizing bound with
  | nil => exact (h rfl).elim
  | cons assignment rest ih =>
      rw [List.foldl_cons] at h ⊢
      by_cases hsame : absorb bound assignment = bound
      · rw [hsame] at h ⊢
        obtain ⟨new, hnew, hfresh, hbound⟩ := ih h
        exact ⟨new, List.mem_cons_of_mem _ hnew, hfresh, hbound⟩
      · refine ⟨assignment, List.mem_cons_self, ?_, mem_foldl_absorb_of_mem ?_⟩
        · intro hmem
          exact hsame (by simp [absorb, hmem])
        · unfold absorb at hsame ⊢
          split at hsame <;> simp_all

/-- The targets of assignments that are still to be bound. -/
def pending (assignments : List (String × List String)) (bound : List String) : Finset String :=
  (assignments.map Prod.fst).toFinset \ bound.toFinset

theorem pending_ssubset (h : assignments.foldl absorb bound ≠ bound) :
    pending assignments (assignments.foldl absorb bound) ⊂ pending assignments bound := by
  have hsubset : pending assignments (assignments.foldl absorb bound) ⊆
      pending assignments bound := by
    refine Finset.sdiff_subset_sdiff (Finset.Subset.refl _) fun v hv => ?_
    rw [List.mem_toFinset] at hv ⊢
    exact mem_foldl_absorb_of_mem hv
  obtain ⟨assignment, hmem, hfresh, hbound⟩ := exists_new_of_foldl_absorb_ne h
  refine (Finset.ssubset_iff_of_subset hsubset).mpr ⟨assignment.1, ?_, ?_⟩
  · simpa [pending, hfresh] using ⟨assignment.2, hmem⟩
  · simp [pending, hbound]

theorem saturate_of_stable (h : assignments.foldl absorb bound = bound) (rounds : Nat) :
    saturate assignments rounds bound = bound := by
  induction rounds with
  | zero => rfl
  | succ rounds ih => rw [saturate, h, ih]

/-- There is a round for each target to be bound, so the rounds settle. -/
theorem settles_saturate {rounds : Nat} (h : (pending assignments bound).card ≤ rounds) :
    Settles assignments bound (saturate assignments rounds bound) := by
  induction rounds generalizing bound with
  | zero =>
      refine .stop ?_
      by_contra hne
      have hless := Finset.card_lt_card (pending_ssubset hne)
      omega
  | succ rounds ih =>
      by_cases hstable : assignments.foldl absorb bound = bound
      · rw [saturate_of_stable hstable]
        exact .stop hstable
      · have hless := Finset.card_lt_card (pending_ssubset hstable)
        exact .again hstable (ih (by omega))

end Rounds

namespace Rule

variable {rule other : Rule} {v : String}

theorem settles_bound (rule : Rule) :
    Settles rule.assignments (rule.body.flatMap Literal.binds) rule.bound := by
  refine settles_saturate ?_
  calc (pending rule.assignments (rule.body.flatMap Literal.binds)).card
      ≤ (rule.assignments.map Prod.fst).toFinset.card := Finset.card_le_card Finset.sdiff_subset
    _ ≤ (rule.assignments.map Prod.fst).length := List.toFinset_card_le _
    _ = rule.assignments.length := List.length_map _

/-- The bound variables are the least closed set. -/
theorem isLeast_bound (rule : Rule) : IsLeast {B | rule.Closes B} {v | v ∈ rule.bound} := by
  constructor
  · refine closes_iff.mpr ⟨fun v hv => mem_bound_of_binds hv, ?_⟩
    rintro ⟨v, sources⟩ hassign hsources
    have hround : v ∈ rule.assignments.foldl absorb rule.bound :=
      mem_foldl_absorb_of_sources hassign hsources
    rwa [(settles_bound rule).stable] at hround
  · intro B hB v hv
    obtain ⟨hbinds, hassign⟩ := closes_iff.mp hB
    exact forall_mem_saturate hassign hbinds v hv

theorem mem_unbound_iff : v ∈ rule.unbound ↔ rule.Needs v ∧ v ∉ rule.bound := by
  rw [unbound, Text.mem_sortNames, List.mem_filter, mem_needed_iff]
  simp

/-- The bound variables depend on what the literals bind and assign. -/
theorem mem_bound_mono (hbinds : ∀ v ∈ rule.body.flatMap Literal.binds,
      v ∈ other.body.flatMap Literal.binds)
    (hassign : ∀ assignment ∈ rule.assignments, assignment ∈ other.assignments)
    (hv : v ∈ rule.bound) : v ∈ other.bound := by
  have hother := closes_iff.mp (isLeast_bound other).1
  have hcloses : rule.Closes {v | v ∈ other.bound} :=
    closes_iff.mpr ⟨fun v hv => hother.1 v (hbinds v hv),
      fun assignment h => hother.2 assignment (hassign assignment h)⟩
  exact (isLeast_bound rule).2 hcloses hv

/-- Unbound variables depend on what the literals bind, assign and need. -/
theorem unbound_congr (hhead : rule.head = other.head)
    (hbinds : ∀ v, v ∈ rule.body.flatMap Literal.binds ↔ v ∈ other.body.flatMap Literal.binds)
    (hassign : ∀ assignment, assignment ∈ rule.assignments ↔ assignment ∈ other.assignments)
    (hneeds : ∀ v, v ∈ rule.body.flatMap Literal.needs ↔ v ∈ other.body.flatMap Literal.needs) :
    rule.unbound = other.unbound := by
  refine Text.sortNames_congr fun v => ?_
  have hbound : v ∈ rule.bound ↔ v ∈ other.bound :=
    ⟨mem_bound_mono (fun v => (hbinds v).mp) fun a => (hassign a).mp,
      mem_bound_mono (fun v => (hbinds v).mpr) fun a => (hassign a).mpr⟩
  simp only [List.mem_filter, needed, List.mem_append, hhead, hneeds, List.contains_eq_mem, hbound]

theorem unbound_perm {head : Atom} {body body' : List Literal} (h : body'.Perm body) :
    (Rule.mk head body').unbound = (Rule.mk head body).unbound :=
  unbound_congr rfl (fun _ => (h.flatMap_right _).mem_iff) (fun _ => (h.flatMap_right _).mem_iff)
    fun _ => (h.flatMap_right _).mem_iff

theorem unbound_swap (head : Atom) (front back : List Literal) (left right : ScalarExpr) :
    (Rule.mk head (front ++ .constraint right .eq left :: back)).unbound =
      (Rule.mk head (front ++ .constraint left .eq right :: back)).unbound := by
  refine unbound_congr rfl (fun v => ?_) (fun assignment => ?_) fun v => ?_
  · simp [Literal.binds]
  · simp only [assignments, List.flatMap_append, List.flatMap_cons, Literal.assignments,
      List.mem_append]
    tauto
  · simp only [List.flatMap_append, List.flatMap_cons, Literal.needs, List.mem_append]
    tauto

theorem unbound_subset_of_positive (head : Atom) (front back : List Literal) (atom : Atom) :
    (Rule.mk head (front ++ .positive atom :: back)).unbound ⊆
      (Rule.mk head (front ++ back)).unbound := by
  intro v hv
  rw [unbound, Text.mem_sortNames, List.mem_filter] at hv ⊢
  obtain ⟨hneeded, hunbound⟩ := hv
  refine ⟨by simpa [needed, Literal.needs] using hneeded, ?_⟩
  rw [Bool.not_eq_true', List.contains_eq_mem, decide_eq_false_iff_not] at hunbound ⊢
  refine fun hv => hunbound (mem_bound_mono (fun v hv => ?_) (fun assignment hassign => ?_) hv)
  · rw [List.flatMap_append, List.mem_append] at hv ⊢
    exact hv.imp_right (List.mem_append_right _)
  · simpa [assignments, Literal.assignments] using hassign

/-- The analysis settles.  It gives the variables that have to be bound and are not in the least
closed set, in increasing order, whatever the order of the literals and the sides of the equalities,
and one more positive atom gives none that was not there before. -/
theorem unbound_eq_needs_diff_least (rule : Rule) :
    Settles rule.assignments (rule.body.flatMap Literal.binds) rule.bound ∧
      (∃ B, IsLeast {B | rule.Closes B} B ∧ ∀ v, v ∈ rule.unbound ↔ rule.Needs v ∧ v ∉ B) ∧
      rule.unbound.Pairwise (· < ·) ∧
      (∀ body, body.Perm rule.body → (Rule.mk rule.head body).unbound = rule.unbound) ∧
      (∀ front left right back, rule.body = front ++ .constraint left .eq right :: back →
        (Rule.mk rule.head (front ++ .constraint right .eq left :: back)).unbound =
          rule.unbound) ∧
      ∀ front atom back, rule.body = front ++ back →
        (Rule.mk rule.head (front ++ .positive atom :: back)).unbound ⊆ rule.unbound := by
  obtain ⟨head, body⟩ := rule
  refine ⟨settles_bound _, ⟨_, isLeast_bound _, fun v => mem_unbound_iff⟩,
    Text.pairwise_sortNames _, fun _ => unbound_perm, ?_, ?_⟩
  · rintro front left right back rfl
    exact unbound_swap head front back left right
  · rintro front atom back rfl
    exact unbound_subset_of_positive head front back atom

end Rule

namespace Sample

/-- A chain of two assignments, the second before the first and the first written from right to
left, beside a variable that nothing binds. -/
def chained : Rule where
  head := ⟨"q", [.var "z", .var "w"]⟩
  body := [.constraint (.term (.var "z")) .eq
      (.binary .add (.term (.var "y")) (.term (.number 1))),
    .constraint (.term (.var "x")) .eq (.term (.var "y")), .positive ⟨"p", [.var "x"]⟩]

end Sample

theorem sample_unbound :
    Sample.chained.unbound = ["w"] ∧
      (Rule.mk Sample.chained.head Sample.chained.body.reverse).unbound = ["w"] ∧
      (Rule.mk Sample.chained.head [.constraint (.term (.var "z")) .eq
          (.binary .add (.term (.var "y")) (.term (.number 1))),
        .constraint (.term (.var "y")) .eq (.term (.var "x")),
        .positive ⟨"p", [.var "x"]⟩]).unbound = ["w"] ∧
      (Rule.mk Sample.chained.head (.positive ⟨"r", [.var "w"]⟩ :: Sample.chained.body)).unbound ⊆
        ["w"] := by
  obtain ⟨-, -, -, hperm, hswap, hadd⟩ := Rule.unbound_eq_needs_diff_least Sample.chained
  have hunbound : Sample.chained.unbound = ["w"] := by decide +kernel
  rw [hunbound] at hperm hswap hadd
  exact ⟨hunbound, hperm _ (List.reverse_perm _), hswap [_] _ _ [_] rfl, hadd [] _ _ rfl⟩

end Datalog

end RelQuery
