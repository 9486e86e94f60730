import Mathlib.Tactic
import RelQuery.Datalog.Safety

/-!
# Bound variables of a rule

`Rule.Binds` says without rounds which variables the body of a rule binds: those of its positive
atoms, the results of its aggregates, and the target of an equality whose other side is bound.
Whatever the rounds of `Rule.bound` collect is bound in this sense.  In the other direction only
one round is needed below, since no generated rule assigns a variable from another assigned one.
-/

namespace RelQuery

/-! ## Sorted names -/

theorem Text.mem_dropRepeats {α : Type} [DecidableEq α] {x : α} {xs : List α} :
    x ∈ dropRepeats xs ↔ x ∈ xs := by
  fun_induction dropRepeats xs with
  | case1 => rfl
  | case2 y => rfl
  | case3 y rest ih => simp [ih]
  | case4 y z rest hne ih => simp [ih]

theorem Text.mem_sortNames {x : String} {names : List String} :
    x ∈ sortNames names ↔ x ∈ names := by
  rw [sortNames, mem_dropRepeats, List.mem_mergeSort]

namespace Datalog

/-- The variables that the body of a rule binds. -/
inductive Rule.Binds (rule : Rule) : String → Prop where
  | literal {l : Literal} {v : String} (hl : l ∈ rule.body) (hv : v ∈ l.binds) : Binds rule v
  | assignment {l : Literal} {target : String} {sources : List String} (hl : l ∈ rule.body)
      (hassign : (target, sources) ∈ l.assignments)
      (hsources : ∀ v ∈ sources, Binds rule v) : Binds rule target

/-! ## Rounds of assignments -/

section Rounds

variable {assignments : List (String × List String)} {bound : List String} {v : String}

theorem mem_absorb {assignment : String × List String} :
    v ∈ absorb bound assignment ↔
      v ∈ bound ∨ v = assignment.1 ∧ ∀ u ∈ assignment.2, u ∈ bound := by
  unfold absorb
  by_cases hsources : ∀ u ∈ assignment.2, u ∈ bound
  · by_cases hbound : assignment.1 ∈ bound
    · have hkeep : v = assignment.1 → v ∈ bound := by
        rintro rfl
        exact hbound
      simp only [List.contains_eq_mem, hbound, decide_true, Bool.not_true, Bool.false_and,
        Bool.false_eq_true, if_false]
      tauto
    · rw [if_pos (by simpa [hbound] using hsources), List.mem_cons]
      tauto
  · rw [if_neg (by simpa using fun _ => hsources)]
    tauto

theorem mem_foldl_absorb_of_mem (hv : v ∈ bound) : v ∈ assignments.foldl absorb bound := by
  induction assignments generalizing bound with
  | nil => exact hv
  | cons assignment rest ih => exact ih (mem_absorb.mpr (.inl hv))

/-- One pass binds the target of an assignment whose sources are bound before it. -/
theorem mem_foldl_absorb_of_sources {sources : List String}
    (hassign : (v, sources) ∈ assignments) (hsources : ∀ u ∈ sources, u ∈ bound) :
    v ∈ assignments.foldl absorb bound := by
  induction assignments generalizing bound with
  | nil => simp at hassign
  | cons assignment rest ih =>
      rw [List.foldl_cons]
      rcases List.mem_cons.mp hassign with rfl | hrest
      · exact mem_foldl_absorb_of_mem (mem_absorb.mpr (.inr ⟨rfl, hsources⟩))
      · exact ih hrest fun u hu => mem_absorb.mpr (.inl (hsources u hu))

theorem mem_saturate_of_mem {rounds : Nat} (hv : v ∈ bound) :
    v ∈ saturate assignments rounds bound := by
  induction rounds generalizing bound with
  | zero => exact hv
  | succ rounds ih => exact ih (mem_foldl_absorb_of_mem hv)

/-- A property of all sources of an assignment that passes to its target holds of all that is bound
in the end when it holds of all that is bound at first. -/
theorem forall_mem_saturate {P : String → Prop} {rounds : Nat}
    (hstep : ∀ assignment ∈ assignments, (∀ u ∈ assignment.2, P u) → P assignment.1)
    (hbound : ∀ u ∈ bound, P u) : ∀ u ∈ saturate assignments rounds bound, P u := by
  have hpass : ∀ pending bound : List _, (∀ assignment ∈ pending, assignment ∈ assignments) →
      (∀ u ∈ bound, P u) → ∀ u ∈ pending.foldl absorb bound, P u := by
    intro pending
    induction pending with
    | nil =>
        intro bound _ hbound
        exact hbound
    | cons assignment rest ih =>
        intro bound hpending hbound
        rw [List.forall_mem_cons] at hpending
        apply ih _ hpending.2
        intro u hu
        rcases mem_absorb.mp hu with hu | ⟨rfl, hsources⟩
        · exact hbound u hu
        · exact hstep assignment hpending.1 fun w hw => hbound w (hsources w hw)
  induction rounds generalizing bound with
  | zero => exact hbound
  | succ rounds ih => exact ih (hpass assignments bound (fun _ h => h) hbound)

end Rounds

namespace Rule

variable {rule : Rule} {v : String}

theorem mem_bound_of_binds (hv : v ∈ rule.body.flatMap Literal.binds) : v ∈ rule.bound :=
  mem_saturate_of_mem hv

theorem mem_bound_of_assignment {sources : List String}
    (hassign : (v, sources) ∈ rule.assignments)
    (hsources : ∀ u ∈ sources, u ∈ rule.body.flatMap Literal.binds) : v ∈ rule.bound := by
  have hrounds : ∃ rounds, rule.assignments.length = rounds + 1 :=
    ⟨rule.assignments.length - 1, by have := List.length_pos_of_mem hassign; omega⟩
  obtain ⟨rounds, hrounds⟩ := hrounds
  rw [bound, hrounds, saturate]
  exact mem_saturate_of_mem (mem_foldl_absorb_of_sources hassign hsources)

/-- What the rounds collect is bound. -/
theorem binds_of_mem_bound (hv : v ∈ rule.bound) : rule.Binds v := by
  refine forall_mem_saturate ?_ ?_ v hv
  · intro assignment hassign hsources
    obtain ⟨l, hl, hassign⟩ := List.mem_flatMap.mp hassign
    exact .assignment hl hassign hsources
  · intro u hu
    obtain ⟨l, hl, hu⟩ := List.mem_flatMap.mp hu
    exact .literal hl hu

theorem unbound_eq_nil_iff : rule.unbound = [] ↔ ∀ v ∈ rule.needed, v ∈ rule.bound := by
  rw [unbound, List.eq_nil_iff_forall_not_mem]
  simp only [Text.mem_sortNames, List.mem_filter, List.contains_eq_mem, Bool.not_eq_true',
    decide_eq_false_iff_not, not_and, not_not]

/-- A rule is safe when its literals bind all that it needs, or all but the targets of assignments
from bound variables. -/
theorem unbound_eq_nil
    (h : ∀ v ∈ rule.needed, v ∈ rule.body.flatMap Literal.binds ∨
      ∃ sources, (v, sources) ∈ rule.assignments ∧
        ∀ u ∈ sources, u ∈ rule.body.flatMap Literal.binds) :
    rule.unbound = [] := by
  rw [unbound_eq_nil_iff]
  intro v hv
  rcases h v hv with hbinds | ⟨sources, hassign, hsources⟩
  · exact mem_bound_of_binds hbinds
  · exact mem_bound_of_assignment hassign hsources

end Rule

end Datalog

end RelQuery
