import Mathlib.Data.List.Lex
import Mathlib.Data.Sum.Order
import RelQuery.Proofs.Datalog.Saturation
import RelQuery.Proofs.Relation.Validation
import RelQuery.Proofs.Text.Basic

/-!
# Relations in normal form

Values and tuples have an order that agrees with equality: of two that differ, one comes before the
other.  The tuples of a relation in normal form are strictly increasing, so a normal form is known
as soon as its tuples are known as a set.
-/

namespace RelQuery

/-! ## The order of values and tuples -/

/-- Numbers come before symbols, numbers by their value and symbols by the bytes of their text. -/
inductive Value.Precedes : Value → Value → Prop where
  | numbers {m n : Int} (h : m < n) : Precedes (.number m) (.number n)
  | kinds (n : Int) (s : String) : Precedes (.number n) (.symbol s)
  | symbols {s t : String} (h : Text.bytes s < Text.bytes t) : Precedes (.symbol s) (.symbol t)

/-- Tuples are ordered by their first difference, and a tuple comes before one that goes on. -/
def Tuple.Precedes : Tuple → Tuple → Prop :=
  List.Lex Value.Precedes

/-- The place of a value in a linear order. -/
def Value.rank : Value → Int ⊕ₗ String
  | number n => Sum.inlₗ n
  | symbol s => Sum.inrₗ s

theorem Value.rank_injective : Function.Injective Value.rank := by
  intro a b h
  cases a <;> cases b <;> simp_all [rank]

theorem Value.before_iff {a b : Value} : a.before b = true ↔ a.rank < b.rank := by
  cases a <;> cases b <;> simp [before, rank]

theorem Value.precedes_iff {a b : Value} : a.Precedes b ↔ a.rank < b.rank := by
  constructor
  · rintro (h | _ | h)
    · simpa [rank] using h
    · simp [rank]
    · simpa [rank] using Text.bytes_lt_iff.mp h
  · intro h
    cases a with
    | number m =>
        cases b with
        | number n => exact .numbers (by simpa [rank] using h)
        | symbol s => exact .kinds m s
    | symbol s =>
        cases b with
        | number n => simp [rank] at h
        | symbol t => exact .symbols (Text.bytes_lt_iff.mpr (by simpa [rank] using h))

namespace Tuple

/-- The ranks of the values of a tuple. -/
def rank (tuple : Tuple) : List (Int ⊕ₗ String) :=
  tuple.map Value.rank

@[simp] theorem rank_nil : rank [] = [] :=
  rfl

@[simp] theorem rank_cons (value : Value) (tuple : Tuple) :
    rank (value :: tuple) = value.rank :: rank tuple :=
  rfl

theorem rank_injective : Function.Injective rank :=
  List.map_injective_iff.mpr Value.rank_injective

theorem before_iff {as bs : Tuple} : before as bs = true ↔ rank as < rank bs := by
  fun_induction before as bs with
  | case1 => simp
  | case2 b bs => simp
  | case3 a as => simp
  | case4 a as b bs ih =>
      rw [Bool.or_eq_true, Bool.and_eq_true, beq_iff_eq, ih, Value.before_iff, rank_cons, rank_cons,
        List.cons_lt_cons_iff, Value.rank_injective.eq_iff]

theorem precedes_iff {as bs : Tuple} : as.Precedes bs ↔ rank as < rank bs := by
  induction as generalizing bs with
  | nil =>
      cases bs with
      | nil => simp [Precedes]
      | cons b bs => exact iff_of_true .nil (by simp)
  | cons a as ih =>
      cases bs with
      | nil => simp [Precedes]
      | cons b bs =>
          have hrest : List.Lex Value.Precedes as bs ↔ rank as < rank bs := ih
          rw [Precedes, List.cons_lex_cons_iff, hrest, Value.precedes_iff, rank_cons, rank_cons,
            List.cons_lt_cons_iff, Value.rank_injective.eq_iff]

instance : DecidableRel Precedes := fun _ _ =>
  decidable_of_iff _ (before_iff.trans precedes_iff.symm)

instance : Std.Irrefl Precedes where
  irrefl _ h := lt_irrefl _ (precedes_iff.mp h)

instance : Std.Antisymm Precedes where
  antisymm _ _ h h' := (lt_asymm (precedes_iff.mp h) (precedes_iff.mp h')).elim

end Tuple

/-! ## Normal forms -/

namespace Relation

theorem mem_normalize {r : Relation} {tuple : Tuple} :
    tuple ∈ r.normalize.tuples ↔ tuple ∈ r.tuples := by
  rw [normalize, Text.mem_dropRepeats, List.mem_mergeSort]

/-- The tuples of a normal form are strictly increasing. -/
theorem pairwise_normalize (r : Relation) : r.normalize.tuples.Pairwise Tuple.Precedes := by
  have hle {a b : Tuple} : (!Tuple.before b a) = true ↔ Tuple.rank a ≤ Tuple.rank b := by
    rw [← not_lt, ← Tuple.before_iff, Bool.not_eq_true', Bool.not_eq_true]
  have hsorted : (r.tuples.mergeSort fun a b => !Tuple.before b a).Pairwise
      fun a b => Tuple.rank a ≤ Tuple.rank b := by
    refine (List.pairwise_mergeSort ?_ ?_ r.tuples).imp hle.mp
    · intro a b c hab hbc
      exact hle.mpr ((hle.mp hab).trans (hle.mp hbc))
    · intro a b
      rw [Bool.or_eq_true, hle, hle]
      exact le_total _ _
  have hanti (a b : Tuple) (hab : Tuple.rank a ≤ Tuple.rank b)
      (hba : Tuple.rank b ≤ Tuple.rank a) : a = b :=
    Tuple.rank_injective (le_antisymm hab hba)
  refine (Text.pairwise_dropRepeats hanti hsorted).imp ?_
  rintro a b ⟨hab, hne⟩
  exact Tuple.precedes_iff.mpr (lt_of_le_of_ne hab (Tuple.rank_injective.ne hne))

/-- A relation whose tuples are strictly increasing is the normal form of every relation with the
same types and the same tuples. -/
theorem normalize_eq_of_mem_iff {r s : Relation} (hs : s.tuples.Pairwise Tuple.Precedes)
    (htypes : r.types = s.types) (htuples : ∀ tuple, tuple ∈ r.tuples ↔ tuple ∈ s.tuples) :
    r.normalize = s := by
  have heq : r.normalize.tuples = s.tuples :=
    r.pairwise_normalize.eq_of_mem_iff hs fun tuple => mem_normalize.trans (htuples tuple)
  calc r.normalize = ⟨r.types, r.normalize.tuples⟩ := rfl
    _ = ⟨s.types, s.tuples⟩ := by rw [htypes, heq]

end Relation

end RelQuery
