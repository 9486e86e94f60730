import Mathlib.Order.Monotone.Basic
import RelQuery.Proofs.Schema.FreshNames

/-!
# Supplies that keep other names clear

The relations that a supply gives out are numbered by the positive numbers, in order, without those
whose name is reserved.  Two supplies with different reserved names therefore give out different
names, but in step: the relation that the one gives out first, second and so on corresponds to the
one that the other gives out at the same turn.  This correspondence is a renaming.  It leaves the
reserved names alone, is injective if the second supply keeps more names clear, and does nothing if
both keep the same relation names clear.
-/

namespace RelQuery.FreshNames

variable {reserved reserved' : List String} {n start k : Nat}

/-! ## The numbers that are given out -/

theorem firstFree_le (hstart : start ≤ n) (hfree : relationName n ∉ reserved) :
    firstFree reserved start ≤ n := by
  unfold firstFree
  rw [List.find?_map]
  cases hfind : (List.range (reserved.length + 1)).find?
      ((fun number => !reserved.contains (relationName number)) ∘ (start + ·)) with
  | none => simpa using hstart
  | some offset =>
      obtain ⟨-, -, hbefore⟩ := List.find?_range_eq_some.mp hfind
      by_contra hlt
      simp only [Option.map_some, Option.getD_some, not_le] at hlt
      have hreserved := hbefore (n - start) (by omega)
      simp only [Function.comp_apply, Bool.not_not, List.contains_eq_mem, decide_eq_true_eq,
        Nat.add_sub_cancel' hstart] at hreserved
      exact hfree hreserved

/-- The number of the relation at turn `k`, counted from one. -/
def issued (reserved : List String) : Nat → Nat
  | 0 => 0
  | k + 1 => firstFree reserved (issued reserved k + 1)

theorem issued_lt_succ (reserved : List String) (k : Nat) :
    issued reserved k < issued reserved (k + 1) :=
  (firstFree_free reserved (issued reserved k + 1)).1

theorem issued_strictMono (reserved : List String) : StrictMono (issued reserved) :=
  strictMono_nat_of_lt_succ (issued_lt_succ reserved)

theorem issued_free (reserved : List String) (k : Nat) :
    relationName (issued reserved (k + 1)) ∉ reserved :=
  (firstFree_free reserved (issued reserved k + 1)).2

/-- Every positive number whose name is free is given out at some turn. -/
theorem exists_issued (hpos : 0 < n) (hfree : relationName n ∉ reserved) :
    ∃ k, issued reserved (k + 1) = n := by
  have hbound : ∃ k, n ≤ issued reserved (k + 1) :=
    ⟨n, (Nat.le_succ n).trans ((issued_strictMono reserved).le_apply (x := n + 1))⟩
  have hle := Nat.find_spec hbound
  refine ⟨Nat.find hbound, le_antisymm ?_ hle⟩
  apply firstFree_le _ hfree
  cases hk : Nat.find hbound with
  | zero => exact hpos
  | succ k =>
      have hbefore := Nat.find_min hbound (m := k) (by omega)
      exact Nat.succ_le_of_lt (not_le.mp hbefore)

theorem issued_congr (h : ∀ n, relationName n ∈ reserved ↔ relationName n ∈ reserved') :
    issued reserved = issued reserved' := by
  have hfirst : ∀ start, firstFree reserved start = firstFree reserved' start := by
    intro start
    obtain ⟨hle, hfree⟩ := firstFree_free reserved start
    obtain ⟨hle', hfree'⟩ := firstFree_free reserved' start
    exact le_antisymm (firstFree_le hle' (mt (h _).mp hfree'))
      (firstFree_le hle (mt (h _).mpr hfree))
  funext k
  induction k with
  | zero => rfl
  | succ k ih => rw [issued, issued, ih, hfirst]

/-! ## The renaming between two supplies -/

/-- The name of the relation at a turn, counted from zero. -/
def turnName (reserved : List String) (k : Nat) : String :=
  relationName (issued reserved (k + 1))

theorem turnName_injective (reserved : List String) : Function.Injective (turnName reserved) := by
  intro k l h
  have hnumber := (issued_strictMono reserved).injective (relationName_injective h)
  omega

theorem exists_turnName (hpos : 0 < n) (hfree : relationName n ∉ reserved) :
    ∃ k, turnName reserved k = relationName n := by
  obtain ⟨k, hk⟩ := exists_issued hpos hfree
  exact ⟨k, by rw [turnName, hk]⟩

theorem issued_pos (reserved : List String) (k : Nat) : 0 < issued reserved (k + 1) :=
  Nat.zero_lt_of_lt (issued_lt_succ reserved k)

/-- What the first supply gives out becomes what the second gives out at the same turn. -/
noncomputable def renumber (reserved reserved' : List String) : String → String :=
  Function.extend (turnName reserved) (turnName reserved') id

theorem renumber_turnName (reserved reserved' : List String) (k : Nat) :
    renumber reserved reserved' (turnName reserved k) = turnName reserved' k :=
  (turnName_injective reserved).extend_apply _ _ k

theorem renumber_of_not_turn {name : String} (h : ¬ ∃ k, turnName reserved k = name) :
    renumber reserved reserved' name = name :=
  Function.extend_apply' _ _ name h

theorem renumber_of_mem {name : String} (h : name ∈ reserved) :
    renumber reserved reserved' name = name := by
  apply renumber_of_not_turn
  rintro ⟨k, rfl⟩
  exact issued_free reserved k h

/-- Generated names become generated names. -/
theorem renumber_relationName (reserved reserved' : List String) (n : Nat) :
    ∃ m, renumber reserved reserved' (relationName n) = relationName m := by
  by_cases hturn : ∃ k, turnName reserved k = relationName n
  · obtain ⟨k, hk⟩ := hturn
    rw [← hk, renumber_turnName]
    exact ⟨_, rfl⟩
  · exact ⟨n, renumber_of_not_turn hturn⟩

theorem renumber_injective
    (h : ∀ n, relationName n ∈ reserved → relationName n ∈ reserved') :
    Function.Injective (renumber reserved reserved') := by
  -- A name that stays as it is was never given out by the second supply.
  have hkept : ∀ {name : String} {k : Nat}, (¬ ∃ k, turnName reserved k = name) →
      turnName reserved' k ≠ name := by
    rintro _ k hturn rfl
    exact hturn (exists_turnName (issued_pos reserved' k) (mt (h _) (issued_free reserved' k)))
  intro name other heq
  by_cases hname : ∃ k, turnName reserved k = name
  · obtain ⟨k, rfl⟩ := hname
    by_cases hother : ∃ l, turnName reserved l = other
    · obtain ⟨l, rfl⟩ := hother
      rw [renumber_turnName, renumber_turnName] at heq
      rw [turnName_injective reserved' heq]
    · rw [renumber_turnName, renumber_of_not_turn hother] at heq
      exact absurd heq (hkept hother)
  · by_cases hother : ∃ l, turnName reserved l = other
    · obtain ⟨l, rfl⟩ := hother
      rw [renumber_turnName, renumber_of_not_turn hname] at heq
      exact absurd heq.symm (hkept hname)
    · rwa [renumber_of_not_turn hname, renumber_of_not_turn hother] at heq

theorem renumber_eq_id (h : ∀ n, relationName n ∈ reserved ↔ relationName n ∈ reserved') :
    renumber reserved reserved' = id := by
  funext name
  by_cases hname : ∃ k, turnName reserved k = name
  · obtain ⟨k, rfl⟩ := hname
    rw [renumber_turnName, turnName, turnName, issued_congr h]
    rfl
  · exact renumber_of_not_turn hname

/-! ## Supplies in step -/

/-- Two supplies that have given out the same number of relations and variables. -/
structure InStep (reserved reserved' : List String) (names names' : FreshNames) : Prop where
  left : names.reserved = reserved
  right : names'.reserved = reserved'
  varCount : names'.varCount = names.varCount
  turn : ∃ k, names.relationCount = issued reserved k ∧ names'.relationCount = issued reserved' k

theorem inStep_avoiding (reserved reserved' : List String) :
    InStep reserved reserved' (avoiding reserved) (avoiding reserved') :=
  ⟨rfl, rfl, rfl, 0, rfl, rfl⟩

namespace InStep

variable {names names' : FreshNames}

theorem relation (h : InStep reserved reserved' names names') :
    (∃ n, names.relation.1 = relationName n) ∧
      names'.relation.1 = renumber reserved reserved' names.relation.1 ∧
      InStep reserved reserved' names.relation.2 names'.relation.2 := by
  obtain ⟨k, hcount, hcount'⟩ := h.turn
  have hname : names.relation.1 = turnName reserved k := by
    rw [FreshNames.relation, h.left, hcount]
    rfl
  have hname' : names'.relation.1 = turnName reserved' k := by
    rw [FreshNames.relation, h.right, hcount']
    rfl
  refine ⟨⟨_, rfl⟩, ?_, h.left, h.right, h.varCount, k + 1, ?_, ?_⟩
  · rw [hname, hname', renumber_turnName]
  · rw [FreshNames.relation, h.left, hcount]
    rfl
  · rw [FreshNames.relation, h.right, hcount']
    rfl

theorem var (h : InStep reserved reserved' names names') (stem : String) :
    (names'.var stem).1 = (names.var stem).1 ∧
      InStep reserved reserved' (names.var stem).2 (names'.var stem).2 := by
  refine ⟨?_, h.left, h.right, ?_, h.turn⟩
  · rw [FreshNames.var, FreshNames.var, h.varCount]
  · rw [FreshNames.var, FreshNames.var, h.varCount]

theorem vars (h : InStep reserved reserved' names names') (stems : List String) :
    (names'.vars stems).1 = (names.vars stems).1 ∧
      InStep reserved reserved' (names.vars stems).2 (names'.vars stems).2 := by
  refine ⟨?_, h.left, h.right, ?_, h.turn⟩
  · rw [FreshNames.vars, FreshNames.vars, h.varCount]
  · rw [FreshNames.vars, FreshNames.vars, h.varCount]

end InStep

end RelQuery.FreshNames
