import Mathlib.Tactic
import RelQuery.Proofs.Schema.Scope
import RelQuery.Relation.Basic

/-!
# Valid relations

A relation is valid exactly when the types of every tuple are the types of its columns.
-/

namespace RelQuery

/-! ## Loops that may fail -/

section Loops

variable {ε α β : Type} {f : α → Except ε β}

theorem mapM_eq_ok_iff {xs : List α} {ys : List β} :
    xs.mapM f = .ok ys ↔ List.Forall₂ (fun x y => f x = .ok y) xs ys := by
  induction xs generalizing ys with
  | nil =>
      rw [List.mapM_nil, except_pure_eq_ok, List.forall₂_nil_left_iff]
      exact eq_comm
  | cons x xs ih =>
      simp only [List.mapM_cons, except_bind_eq_ok, except_pure_eq_ok, ih,
        List.forall₂_cons_left_iff]
      constructor
      · rintro ⟨y, hy, ys, hys, rfl⟩
        exact ⟨y, ys, hy, hys, rfl⟩
      · rintro ⟨y, ys, hy, hys, rfl⟩
        exact ⟨y, hy, ys, hys, rfl⟩

theorem mapM_eq_some_iff {f : α → Option β} {xs : List α} {ys : List β} :
    xs.mapM f = some ys ↔ List.Forall₂ (fun x y => f x = some y) xs ys := by
  induction xs generalizing ys with
  | nil =>
      rw [List.mapM_nil, List.forall₂_nil_left_iff]
      simp [eq_comm]
  | cons x xs ih =>
      simp only [List.mapM_cons, Option.bind_eq_bind, Option.bind_eq_some_iff, Option.pure_def,
        Option.some.injEq, ih, List.forall₂_cons_left_iff]
      constructor
      · rintro ⟨y, hy, ys, hys, rfl⟩
        exact ⟨y, ys, hy, hys, rfl⟩
      · rintro ⟨y, ys, hy, hys, rfl⟩
        exact ⟨y, hy, ys, hys, rfl⟩

theorem exists_of_forall₂ {R : α → β → Prop} {xs : List α} {ys : List β}
    (h : List.Forall₂ R xs ys) {x : α} (hx : x ∈ xs) : ∃ y ∈ ys, R x y := by
  induction h with
  | nil => cases hx
  | cons hxy _ ih =>
      rcases List.mem_cons.mp hx with rfl | hmem
      · exact ⟨_, List.mem_cons_self, hxy⟩
      · obtain ⟨y, hy, hR⟩ := ih hmem
        exact ⟨y, List.mem_cons_of_mem _ hy, hR⟩

theorem forM_eq_ok_iff {check : α → Except ε Unit} {xs : List α} :
    xs.forM check = .ok () ↔ ∀ x ∈ xs, check x = .ok () := by
  induction xs with
  | nil => simp [pure, Except.pure]
  | cons x xs ih =>
      change (check x >>= fun _ => xs.forM check) = .ok () ↔ _
      rw [except_bind_eq_ok, List.forall_mem_cons, ih]
      constructor
      · rintro ⟨_, hx, hxs⟩
        exact ⟨hx, hxs⟩
      · intro h
        exact ⟨(), h⟩

end Loops

namespace Relation

variable {types : List ColumnType} {row : Nat}

theorem checkValues_eq_ok_iff {column : Nat} {tuple : Tuple}
    (hwidth : tuple.length = types.length) :
    checkValues row column tuple types = .ok () ↔ tuple.map Value.type = types := by
  induction tuple generalizing column types with
  | nil =>
      obtain rfl : types = [] := List.length_eq_zero_iff.mp hwidth.symm
      simp [checkValues]
  | cons value values ih =>
      cases types with
      | nil => simp at hwidth
      | cons type types =>
          have hrest : values.length = types.length := by simpa using hwidth
          rw [checkValues, List.map_cons, List.cons.injEq]
          by_cases htype : value.type = type
          · rw [if_pos htype, ih hrest]
            simp [htype]
          · simp [htype]

theorem checkTuple_eq_ok_iff {tuple : Tuple} :
    checkTuple types row tuple = .ok () ↔ tuple.map Value.type = types := by
  rw [checkTuple, except_bind_eq_ok, checkWidth]
  by_cases hwidth : tuple.length = types.length
  · simp [hwidth, checkValues_eq_ok_iff hwidth]
  · have hne : tuple.map Value.type ≠ types := by
      rintro rfl
      exact hwidth (List.length_map Value.type).symm
    simp [hwidth, hne]

theorem validate_eq_ok_iff {r : Relation} :
    r.validate = .ok () ↔ ∀ tuple ∈ r.tuples, tuple.map Value.type = r.types := by
  rw [validate, forM_eq_ok_iff]
  constructor
  · intro hall tuple htuple
    obtain ⟨row, hrow⟩ := List.getElem?_of_mem htuple
    have hmem : (tuple, row) ∈ r.tuples.zipIdx := List.mem_zipIdx_iff_getElem?.mpr hrow
    exact checkTuple_eq_ok_iff.mp (hall _ hmem)
  · rintro hall ⟨tuple, row⟩ hmem
    rw [List.mem_zipIdx_iff_getElem?] at hmem
    exact checkTuple_eq_ok_iff.mpr (hall tuple (List.mem_of_getElem? hmem))

end Relation

end RelQuery
