import Mathlib.Tactic
import RelQuery.Datalog.Safety
import RelQuery.Schema.Predicate

/-!
# Parameters, columns and variables of predicates

The variables of an atom are those of its terms and those of the parameters of its predicate.  The
parameters of two predicates merge to the union of both lists.
-/

namespace RelQuery

theorem paramVar_injective : Function.Injective paramVar := by
  intro x y h
  have hlist : (paramVar x).toList = (paramVar y).toList := by rw [h]
  simp only [paramVar, String.toList_append, List.append_cancel_right_eq] at hlist
  exact String.toList_inj.mp hlist

@[simp] theorem paramVar_inj {x y : String} : paramVar x = paramVar y ↔ x = y :=
  paramVar_injective.eq_iff

@[simp] theorem mem_mergeParams {x : String} {first second : List String} :
    x ∈ mergeParams first second ↔ x ∈ first ∨ x ∈ second := by
  induction second generalizing first with
  | nil => simp [mergeParams]
  | cons name rest ih =>
      have hstep : mergeParams first (name :: rest) =
          mergeParams (if first.contains name then first else first ++ [name]) rest := rfl
      rw [hstep, ih]
      by_cases hmem : name ∈ first
      · simp only [List.contains_eq_mem, hmem, decide_true, if_true, List.mem_cons]
        constructor
        · rintro (hx | hx)
          · exact .inl hx
          · exact .inr (.inr hx)
        · rintro (hx | rfl | hx)
          · exact .inl hx
          · exact .inl hmem
          · exact .inr hx
      · simp [hmem, or_assoc]

theorem nodup_mergeParams {first : List String} (hfirst : first.Nodup) (second : List String) :
    (mergeParams first second).Nodup := by
  induction second generalizing first with
  | nil => exact hfirst
  | cons name rest ih =>
      have hstep : mergeParams first (name :: rest) =
          mergeParams (if first.contains name then first else first ++ [name]) rest := rfl
      rw [hstep]
      apply ih
      by_cases hmem : name ∈ first
      · simpa [hmem] using hfirst
      · simpa [hmem, List.nodup_append] using ⟨hfirst, fun x hx h => hmem (h ▸ hx)⟩

theorem subset_mergeParams_left (first second : List String) :
    first ⊆ mergeParams first second :=
  fun _ hx => mem_mergeParams.mpr (.inl hx)

theorem subset_mergeParams_right (first second : List String) :
    second ⊆ mergeParams first second :=
  fun _ hx => mem_mergeParams.mpr (.inr hx)

namespace Datalog.Term

@[simp] theorem var?_var (name : String) : (var name).var? = some name :=
  rfl

@[simp] theorem var?_wildcard : wildcard.var? = none :=
  rfl

@[simp] theorem var?_number (value : Int) : (number value).var? = none :=
  rfl

@[simp] theorem var?_symbol (value : String) : (symbol value).var? = none :=
  rfl

end Datalog.Term

namespace Predicate

variable (p : Predicate)

@[simp] theorem length_types : p.types.length = p.arity := by
  simp [types, arity]

@[simp] theorem length_wildcards : p.wildcards.length = p.arity := by
  simp [wildcards]

@[simp] theorem relation_atom (terms : List Datalog.Term) : (p.atom terms).relation = p.name :=
  rfl

@[simp] theorem relation_atomOf (vars : List String) : (p.atomOf vars).relation = p.name :=
  rfl

@[simp] theorem relation_wildcardAtom : p.wildcardAtom.relation = p.name :=
  rfl

@[simp] theorem vars_atom (terms : List Datalog.Term) :
    (p.atom terms).vars = terms.filterMap Datalog.Term.var? ++ p.params.map paramVar := by
  simp only [Datalog.Atom.vars, atom, List.filterMap_append, List.filterMap_map]
  congr 1
  exact List.filterMap_eq_map_iff_forall_eq_some.mpr fun _ _ => rfl

@[simp] theorem vars_atomOf (vars : List String) :
    (p.atomOf vars).vars = vars ++ p.params.map paramVar := by
  have hvars : (vars.map Datalog.Term.var).filterMap Datalog.Term.var? = vars := by
    rw [List.filterMap_map]
    exact List.filterMap_some
  rw [atomOf, vars_atom, hvars]

@[simp] theorem vars_wildcardAtom : p.wildcardAtom.vars = p.params.map paramVar := by
  simp [wildcardAtom, wildcards, Datalog.Term.var?]

variable {p}

theorem exists_lastType (h : p.arity ≠ 0) : ∃ type, p.lastType? = some type := by
  have hne : p.types ≠ [] := by
    intro hnil
    exact h (by rw [← length_types, hnil, List.length_nil])
  exact ⟨_, List.getLast?_eq_some_getLast hne⟩

theorem exists_firstType (h : p.arity ≠ 0) : ∃ type, p.firstType? = some type := by
  have hne : p.types ≠ [] := by
    intro hnil
    exact h (by rw [← length_types, hnil, List.length_nil])
  exact ⟨_, List.head?_eq_some_head hne⟩

variable {type : ColumnType}

theorem types_of_lastType (h : p.lastType? = some type) :
    ∃ init, p.types = init ++ [type] :=
  List.getLast?_eq_some_iff.mp h

theorem types_of_firstType (h : p.firstType? = some type) :
    ∃ rest, p.types = type :: rest :=
  List.head?_eq_some_iff.mp h

theorem arity_ne_zero_of_lastType (h : p.lastType? = some type) : p.arity ≠ 0 := by
  obtain ⟨init, htypes⟩ := types_of_lastType h
  rw [← length_types, htypes, List.length_append, List.length_singleton]
  omega

theorem arity_ne_zero_of_firstType (h : p.firstType? = some type) : p.arity ≠ 0 := by
  obtain ⟨rest, htypes⟩ := types_of_firstType h
  rw [← length_types, htypes, List.length_cons]
  omega

end Predicate

end RelQuery
