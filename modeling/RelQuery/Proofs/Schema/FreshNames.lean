import Mathlib.Data.List.Nodup
import Mathlib.Data.List.Perm.Subperm
import Mathlib.Tactic
import RelQuery.Schema.FreshNames

/-!
# What a supply of fresh names gives out

A supply never gives a reserved name to a relation and never gives a name twice.  Its variables end
in a number behind an underscore, so that the number can be read off and none of them is the
variable of a scalar.

`Issued` says in one place what is given out between two states of a supply, and that it is given
out by serving requests one after another.  Every rule of a program takes its fresh variables from
one such stretch, and every relation that was known before the stretch differs from the relations of
the stretch.
-/

namespace RelQuery

namespace FreshNames

/-- A number is told by its digits. -/
theorem number_eq_of_digits_eq {m n : Nat}
    (h : (toString m).toList = (toString n).toList) : m = n := by
  have hvalue := congrArg (fun digits => Nat.ofDigitChars 10 digits 0) h
  simpa [Nat.toString_eq_ofList_toDigits] using hvalue

theorem relationName_injective : Function.Injective relationName := by
  intro m n h
  have hlist : (relationName m).toList = (relationName n).toList := by rw [h]
  simp only [relationName, String.toList_append, List.append_cancel_left_eq] at hlist
  exact number_eq_of_digits_eq hlist

/-! ## The first free number -/

/-- Among one more numbers than there are reserved names, one gives a name that is free. -/
theorem exists_free (reserved : List String) (start : Nat) :
    ∃ number ∈ (List.range (reserved.length + 1)).map (start + ·),
      relationName number ∉ reserved := by
  by_contra hnone
  push Not at hnone
  have hnodup :
      (((List.range (reserved.length + 1)).map (start + ·)).map relationName).Nodup := by
    refine List.Nodup.map relationName_injective ?_
    exact List.Nodup.map (fun m n h => Nat.add_left_cancel h) List.nodup_range
  have hsubset :
      ((List.range (reserved.length + 1)).map (start + ·)).map relationName ⊆ reserved := by
    intro name hname
    obtain ⟨number, hnumber, rfl⟩ := List.mem_map.mp hname
    exact hnone number hnumber
  have hlength := (List.subperm_of_subset hnodup hsubset).length_le
  simp only [List.length_map, List.length_range] at hlength
  omega

theorem firstFree_free (reserved : List String) (start : Nat) :
    start ≤ firstFree reserved start ∧ relationName (firstFree reserved start) ∉ reserved := by
  obtain ⟨number, hnumber, hfree⟩ := exists_free reserved start
  unfold firstFree
  cases hfind : ((List.range (reserved.length + 1)).map (start + ·)).find?
      fun number => !reserved.contains (relationName number) with
  | none =>
      have hall := List.find?_eq_none.mp hfind number hnumber
      simp [hfree] at hall
  | some found =>
      have hmem := List.mem_of_find?_eq_some hfind
      have hfound := List.find?_some hfind
      obtain ⟨offset, -, rfl⟩ := List.mem_map.mp hmem
      simp only [Bool.not_eq_eq_eq_not, Bool.not_true, List.contains_eq_mem,
        decide_eq_false_iff_not] at hfound
      exact ⟨Nat.le_add_right start offset, hfound⟩

/-! ## The form of a fresh variable -/

theorem takeWhile_digits (number : Nat) (rest : List Char) :
    ((toString number).toList.reverse ++ '_' :: rest).takeWhile (· != '_') =
      (toString number).toList.reverse := by
  have hdigits : ∀ c ∈ (toString number).toList.reverse, (c != '_') = true := by
    intro c hc
    have hne : c ≠ '_' := by
      rintro rfl
      simp at hc
    simpa using hne
  rw [List.takeWhile_append_of_pos hdigits]
  simp

/-- The number of a fresh variable can be read off. -/
theorem number_eq_of_varName_eq {stem stem' : String} {number number' : Nat}
    (h : varName stem number = varName stem' number') : number = number' := by
  have hlist : (varName stem number).toList.reverse =
      (varName stem' number').toList.reverse := by rw [h]
  simp only [varName, String.toList_append, String.reduceToList, List.append_assoc,
    List.cons_append, List.nil_append, List.reverse_append, List.reverse_cons] at hlist
  have hdigits := congrArg (List.takeWhile (· != '_')) hlist
  rw [takeWhile_digits, takeWhile_digits] at hdigits
  exact number_eq_of_digits_eq (List.reverse_injective hdigits)

/-- Stems with different numbers give different names, whatever the stems are. -/
theorem nodup_numbered {α : Type} (stem : α → String) {number : Nat → Nat}
    (hnumber : Function.Injective number) (xs : List α) :
    (xs.mapIdx fun k x => varName (stem x) (number k)).Nodup := by
  rw [List.nodup_iff_injective_get]
  intro i j hij
  simp only [List.get_eq_getElem, List.getElem_mapIdx] at hij
  exact Fin.ext (hnumber (number_eq_of_varName_eq hij))

/-- A fresh variable ends in a digit, the variable of a scalar in a letter. -/
theorem varName_ne_paramVar (stem : String) (number : Nat) (scalar : String) :
    varName stem number ≠ paramVar scalar := by
  intro h
  have hlist : (varName stem number).toList.reverse = (paramVar scalar).toList.reverse := by
    rw [h]
  simp only [varName, paramVar, String.toList_append, String.reduceToList, List.append_assoc,
    List.cons_append, List.nil_append, List.reverse_append, List.reverse_cons] at hlist
  have hdigits := congrArg (List.takeWhile (· != '_')) hlist
  rw [takeWhile_digits] at hdigits
  have hmem : 'e' ∈ (toString number).toList.reverse := by
    rw [hdigits]
    simp
  have hdigit : ('e').isDigit = true := by
    refine Nat.isDigit_of_mem_toDigits (b := 10) (n := number) (by decide) (by decide) ?_
    simpa [Nat.toString_eq_repr] using hmem
  exact absurd hdigit (by decide)

/-! ## Requests -/

/-- What a supply may be asked for. -/
inductive Request where
  | relation
  | var (stem : String)
  deriving DecidableEq

def serve (names : FreshNames) : Request → FreshNames
  | .relation => names.relation.2
  | .var stem => (names.var stem).2

def serveAll (names : FreshNames) (requests : List Request) : FreshNames :=
  requests.foldl serve names

/-- The names that the relations of a sequence of requests get, in order. -/
def relationsFor : FreshNames → List Request → List String
  | _, [] => []
  | names, .relation :: rest => names.relation.1 :: relationsFor (names.serve .relation) rest
  | names, .var stem :: rest => relationsFor (names.serve (.var stem)) rest

/-- The names that the variables of a sequence of requests get, in order. -/
def varsFor : FreshNames → List Request → List String
  | _, [] => []
  | names, .relation :: rest => varsFor (names.serve .relation) rest
  | names, .var stem :: rest => (names.var stem).1 :: varsFor (names.serve (.var stem)) rest

section Requests

variable (names : FreshNames) (first second : List Request)

theorem serveAll_append :
    names.serveAll (first ++ second) = (names.serveAll first).serveAll second :=
  List.foldl_append

theorem relationsFor_append :
    names.relationsFor (first ++ second) =
      names.relationsFor first ++ (names.serveAll first).relationsFor second := by
  induction first generalizing names with
  | nil => rfl
  | cons request rest ih =>
      cases request with
      | relation => exact congrArg (names.relation.1 :: ·) (ih _)
      | var stem => exact ih _

theorem varsFor_append :
    names.varsFor (first ++ second) =
      names.varsFor first ++ (names.serveAll first).varsFor second := by
  induction first generalizing names with
  | nil => rfl
  | cons request rest ih =>
      cases request with
      | relation => exact ih _
      | var stem => exact congrArg ((names.var stem).1 :: ·) (ih _)

/-- Asking for several variables at once is asking for one after another. -/
theorem serveAll_vars (stems : List String) :
    names.serveAll (stems.map .var) = (names.vars stems).2 ∧
      names.relationsFor (stems.map .var) = [] ∧
      names.varsFor (stems.map .var) = (names.vars stems).1 := by
  induction stems generalizing names with
  | nil => exact ⟨rfl, rfl, rfl⟩
  | cons stem rest ih =>
      obtain ⟨hlater, hrelations, hvars⟩ := ih (names.serve (.var stem))
      refine ⟨?_, hrelations, ?_⟩
      · refine hlater.trans ?_
        simp [vars, serve, var, Nat.add_comm, Nat.add_left_comm]
      · rw [List.map_cons, varsFor, hvars]
        simp [vars, serve, var, Nat.add_comm, Nat.add_left_comm]

end Requests

/-! ## Stretches of a supply -/

/-- What a supply gives out between the states `names` and `later`: the relations and the variables
are those of some requests, in order, and they are new and pairwise distinct. -/
structure Issued (names : FreshNames) (relations vars : List String) (later : FreshNames) :
    Prop where
  served : ∃ requests, names.serveAll requests = later ∧
    names.relationsFor requests = relations ∧ names.varsFor requests = vars
  reserved : later.reserved = names.reserved
  relationCount_le : names.relationCount ≤ later.relationCount
  varCount_le : names.varCount ≤ later.varCount
  relations_nodup : relations.Nodup
  relations_new : ∀ name ∈ relations, name ∉ names.reserved ∧
    ∃ number, name = relationName number ∧
      names.relationCount < number ∧ number ≤ later.relationCount
  vars_nodup : vars.Nodup
  vars_new : ∀ v ∈ vars, ∃ stem number, v = varName stem number ∧
    names.varCount < number ∧ number ≤ later.varCount

/-- The names that a supply does not give to a relation any more. -/
def Covers (names : FreshNames) (name : String) : Prop :=
  name ∈ names.reserved ∨ ∃ number ≤ names.relationCount, name = relationName number

namespace Issued

variable {names mid later : FreshNames} {relations relations' vars vars' : List String}

theorem refl (names : FreshNames) : Issued names [] [] names := by
  refine ⟨⟨[], rfl, rfl, rfl⟩, ?_, ?_, ?_, ?_, ?_, ?_, ?_⟩ <;> simp

theorem trans (hfirst : Issued names relations vars mid)
    (hsecond : Issued mid relations' vars' later) :
    Issued names (relations ++ relations') (vars ++ vars') later where
  served := by
    obtain ⟨first, rfl, rfl, rfl⟩ := hfirst.served
    obtain ⟨second, rfl, rfl, rfl⟩ := hsecond.served
    exact ⟨first ++ second, serveAll_append .., relationsFor_append .., varsFor_append ..⟩
  reserved := hsecond.reserved.trans hfirst.reserved
  relationCount_le := hfirst.relationCount_le.trans hsecond.relationCount_le
  varCount_le := hfirst.varCount_le.trans hsecond.varCount_le
  relations_nodup := by
    refine List.Nodup.append hfirst.relations_nodup hsecond.relations_nodup ?_
    intro name hleft hright
    obtain ⟨-, number, rfl, -, hle⟩ := hfirst.relations_new name hleft
    obtain ⟨-, number', heq, hlt, -⟩ := hsecond.relations_new _ hright
    have hnumber := relationName_injective heq
    omega
  relations_new := by
    intro name hname
    rcases List.mem_append.mp hname with hleft | hright
    · obtain ⟨hres, number, rfl, hlt, hle⟩ := hfirst.relations_new name hleft
      exact ⟨hres, number, rfl, hlt, hle.trans hsecond.relationCount_le⟩
    · obtain ⟨hres, number, rfl, hlt, hle⟩ := hsecond.relations_new name hright
      rw [hfirst.reserved] at hres
      exact ⟨hres, number, rfl, hfirst.relationCount_le.trans_lt hlt, hle⟩
  vars_nodup := by
    refine List.Nodup.append hfirst.vars_nodup hsecond.vars_nodup ?_
    intro v hleft hright
    obtain ⟨stem, number, rfl, -, hle⟩ := hfirst.vars_new v hleft
    obtain ⟨stem', number', heq, hlt, -⟩ := hsecond.vars_new _ hright
    have hnumber := number_eq_of_varName_eq heq
    omega
  vars_new := by
    intro v hv
    rcases List.mem_append.mp hv with hleft | hright
    · obtain ⟨stem, number, rfl, hlt, hle⟩ := hfirst.vars_new v hleft
      exact ⟨stem, number, rfl, hlt, hle.trans hsecond.varCount_le⟩
    · obtain ⟨stem, number, rfl, hlt, hle⟩ := hsecond.vars_new v hright
      exact ⟨stem, number, rfl, hfirst.varCount_le.trans_lt hlt, hle⟩

theorem not_param (hissued : Issued names relations vars later) {v : String} (hv : v ∈ vars)
    (scalar : String) : v ≠ paramVar scalar := by
  obtain ⟨stem, number, rfl, -, -⟩ := hissued.vars_new v hv
  exact varName_ne_paramVar stem number scalar

theorem covers (hissued : Issued names relations vars later) {name : String}
    (hname : names.Covers name) : later.Covers name := by
  rcases hname with hres | ⟨number, hle, rfl⟩
  · exact .inl (hissued.reserved ▸ hres)
  · exact .inr ⟨number, hle.trans hissued.relationCount_le, rfl⟩

theorem covers_new (hissued : Issued names relations vars later) {name : String}
    (hname : name ∈ relations) : later.Covers name := by
  obtain ⟨-, number, rfl, -, hle⟩ := hissued.relations_new name hname
  exact .inr ⟨number, hle, rfl⟩

/-- A new relation is none of the relations known before. -/
theorem not_covers (hissued : Issued names relations vars later) {name : String}
    (hname : name ∈ relations) : ¬ names.Covers name := by
  obtain ⟨hfree, number, rfl, hlt, -⟩ := hissued.relations_new name hname
  rintro (hres | ⟨number', hle, heq⟩)
  · exact hfree hres
  · have hnumber := relationName_injective heq
    omega

end Issued

theorem issued_relation {names later : FreshNames} {name : String}
    (h : names.relation = (name, later)) : Issued names [name] [] later := by
  obtain ⟨hle, hfree⟩ := firstFree_free names.reserved (names.relationCount + 1)
  simp only [relation, Prod.mk.injEq] at h
  obtain ⟨rfl, rfl⟩ := h
  constructor
  · exact ⟨[.relation], rfl, rfl, rfl⟩
  · rfl
  · change names.relationCount ≤ firstFree names.reserved (names.relationCount + 1)
    omega
  · exact Nat.le_refl _
  · simp
  · intro name hname
    rw [List.mem_singleton] at hname
    subst hname
    exact ⟨hfree, _, rfl, hle, Nat.le_refl _⟩
  · simp
  · simp

theorem issued_var {names later : FreshNames} {stem v : String}
    (h : names.var stem = (v, later)) : Issued names [] [v] later := by
  simp only [var, Prod.mk.injEq] at h
  obtain ⟨rfl, rfl⟩ := h
  refine ⟨⟨[.var stem], rfl, rfl, rfl⟩, ?_, ?_, ?_, ?_, ?_, ?_, ?_⟩ <;> simp
  exact ⟨stem, names.varCount + 1, rfl, by omega, by omega⟩

theorem issued_vars {names later : FreshNames} {stems vs : List String}
    (h : names.vars stems = (vs, later)) :
    Issued names [] vs later ∧ vs.length = stems.length := by
  simp only [vars, Prod.mk.injEq] at h
  obtain ⟨rfl, rfl⟩ := h
  refine ⟨?_, by simp⟩
  constructor
  · exact ⟨stems.map .var, serveAll_vars names stems⟩
  · rfl
  · exact Nat.le_refl _
  · exact Nat.le_add_right _ _
  · simp
  · simp
  · exact nodup_numbered id (fun _ _ h => Nat.add_left_cancel h) stems
  · intro v hv
    obtain ⟨k, hk, rfl⟩ := List.mem_mapIdx.mp hv
    refine ⟨_, _, rfl, by omega, ?_⟩
    change names.varCount + 1 + k ≤ names.varCount + stems.length
    omega

end FreshNames

end RelQuery
