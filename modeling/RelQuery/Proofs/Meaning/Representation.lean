import RelQuery.Proofs.Compile.Stratification
import RelQuery.Proofs.Meaning.Denotation

/-!
# Predicates that represent sets of tuples

A predicate has its parameters behind its columns.  Under an assignment of the scalars it represents
the set of the tuples whose row, the tuple with the values of the parameters behind it, is in the
relation of the predicate.  Rows for other values of the parameters play no part.

An atom of a predicate says the same about the set that the predicate represents: with variables
that their values are a tuple of the set, with wildcards that the set is not empty.  And a relation
whose rules all have one head represents a set as soon as the rules derive the tuples of the set,
under assignments that leave the parameters as they are.
-/

namespace RelQuery

open Datalog (Aggregate Assignment Atom Interpretation Literal Operations Rule Term)

variable {ops : Operations} {M : Interpretation} {σ τ : Assignment} {p : Predicate} {A B : Rows}
variable {t : Tuple}

/-! ## Matching -/

namespace Datalog

@[simp] theorem Term.matches_var {v : String} {value : Value} :
    (Term.var v).Matches σ value ↔ σ v = value := by
  simp [Term.Matches, Term.eval]

@[simp] theorem Term.matches_wildcard {value : Value} : Term.wildcard.Matches σ value :=
  trivial

theorem forall₂_matches_vars (vars : List String) :
    List.Forall₂ (Term.Matches σ) (vars.map .var) t ↔ vars.map σ = t := by
  rw [List.forall₂_map_left_iff]
  simp only [Term.matches_var]
  rw [← List.forall₂_map_left_iff (R := fun x y => x = y), List.forall₂_eq_eq_eq]

theorem forall₂_matches_wildcards {n : Nat} :
    List.Forall₂ (Term.Matches σ) (List.replicate n .wildcard) t ↔ t.length = n := by
  induction n generalizing t with
  | zero => simp
  | succ n ih =>
      rw [List.replicate_succ, List.forall₂_cons_left_iff]
      cases t with
      | nil => simp
      | cons value rest => simp [ih]

theorem forall₂_matches_append {first second : List Term} :
    List.Forall₂ (Term.Matches σ) (first ++ second) t ↔
      ∃ s u, List.Forall₂ (Term.Matches σ) first s ∧
        List.Forall₂ (Term.Matches σ) second u ∧ t = s ++ u := by
  induction first generalizing t with
  | nil => simp
  | cons term rest ih =>
      simp only [List.cons_append, List.forall₂_cons_left_iff, ih]
      constructor
      · rintro ⟨value, _, hterm, ⟨s, u, hs, hu, rfl⟩, rfl⟩
        exact ⟨value :: s, u, ⟨value, s, hterm, hs, rfl⟩, hu, rfl⟩
      · rintro ⟨_, u, ⟨value, s, hterm, hs, rfl⟩, hu, rfl⟩
        exact ⟨value, s ++ u, hterm, ⟨s, u, hs, hu, rfl⟩, rfl⟩

end Datalog

/-! ## Rows of a predicate -/

namespace Predicate

/-- A tuple with the values of the parameters behind it. -/
def row (σ : Assignment) (p : Predicate) (t : Tuple) : Tuple :=
  t ++ p.params.map fun x => σ (paramVar x)

theorem row_injective (σ : Assignment) (p : Predicate) : Function.Injective (p.row σ) :=
  fun _ _ h => List.append_cancel_right h

/-- Under `σ` the predicate `p` stands for the set `A`. -/
structure Represents (M : Interpretation) (σ : Assignment) (p : Predicate) (A : Rows) :
    Prop where
  sized : ∀ tuple ∈ M p.name, tuple.length = p.arity + p.params.length
  mem : ∀ t, t ∈ A ↔ p.row σ t ∈ M p.name

/-- Two assignments that give the same values to some parameters. -/
def Agree (params : List String) (σ τ : Assignment) : Prop :=
  ∀ x ∈ params, σ (paramVar x) = τ (paramVar x)

theorem row_congr (h : Agree p.params σ τ) (t : Tuple) : p.row σ t = p.row τ t := by
  unfold row
  rw [List.map_congr_left h]

theorem Represents.congr {params : List String} (h : p.Represents M σ A)
    (hagree : Agree params σ τ) (hsubset : p.params ⊆ params) : p.Represents M τ A where
  sized := h.sized
  mem := by
    intro t
    rw [← row_congr fun x hx => hagree x (hsubset hx)]
    exact h.mem t

/-- A set that a predicate represents does not depend on other relations. -/
theorem Represents.update (h : p.Represents M σ A) {name : String} (hne : p.name ≠ name)
    (tuples : Set Tuple) : p.Represents (Function.update M name tuples) σ A := by
  have hsame : Function.update M name tuples p.name = M p.name := Function.update_of_ne hne _ _
  exact ⟨by rw [hsame]; exact h.sized, by rw [hsame]; exact h.mem⟩

theorem length_row (σ : Assignment) (p : Predicate) (t : Tuple) :
    (p.row σ t).length = t.length + p.params.length := by
  rw [row, List.length_append, List.length_map]

theorem Represents.length_eq (h : p.Represents M σ A) (ht : t ∈ A) : t.length = p.arity := by
  have hrow := h.sized _ ((h.mem t).mp ht)
  rw [length_row] at hrow
  omega

/-! ## Atoms of a predicate -/

/-- A relation without columns has no variables in its atom. -/
theorem atom_nil (p : Predicate) : p.atom [] = p.atomOf [] :=
  rfl

theorem matches_atom {terms : List Term} {tuple : Tuple} :
    (p.atom terms).Matches σ tuple ↔
      ∃ t, List.Forall₂ (Term.Matches σ) terms t ∧ tuple = p.row σ t := by
  have hparams : ∀ u, List.Forall₂ (Term.Matches σ)
      (p.params.map fun x => Term.var (paramVar x)) u ↔
        (p.params.map fun x => σ (paramVar x)) = u := by
    intro u
    have hvars : List.Forall₂ (Term.Matches σ) ((p.params.map paramVar).map .var) u ↔ _ :=
      Datalog.forall₂_matches_vars (p.params.map paramVar)
    rwa [List.map_map, List.map_map] at hvars
  simp only [Atom.Matches, atom, Datalog.forall₂_matches_append, hparams]
  constructor
  · rintro ⟨s, u, hs, rfl, rfl⟩
    exact ⟨s, hs, rfl⟩
  · rintro ⟨s, hs, rfl⟩
    exact ⟨s, _, hs, rfl, rfl⟩

/-- The head of a rule matches a row when its variables have the values of the tuple and the
parameters are those of the row. -/
theorem matches_atomOf_row {vars : List String} (hlength : vars.length = t.length) :
    (p.atomOf vars).Matches τ (p.row σ t) ↔ Agree p.params σ τ ∧ vars.map τ = t := by
  unfold atomOf
  rw [matches_atom]
  simp only [Datalog.forall₂_matches_vars]
  constructor
  · rintro ⟨_, rfl, hrow⟩
    obtain ⟨ht, hparams⟩ := List.append_inj hrow (by rw [List.length_map, hlength])
    exact ⟨List.map_inj_left.mp hparams, ht.symm⟩
  · rintro ⟨hagree, rfl⟩
    exact ⟨_, rfl, row_congr hagree _⟩

theorem length_of_matches_atomOf {vars : List String} {tuple : Tuple}
    (hlength : vars.length = p.arity) (h : (p.atomOf vars).Matches σ tuple) :
    tuple.length = p.arity + p.params.length := by
  have hargs := List.Forall₂.length_eq h
  rw [← hargs]
  simp [atomOf, atom, hlength]

theorem Represents.holds_atom (h : p.Represents M σ A) {terms : List Term} :
    (p.atom terms).Holds M σ ↔ ∃ t ∈ A, List.Forall₂ (Term.Matches σ) terms t := by
  simp only [Atom.Holds, relation_atom, matches_atom]
  constructor
  · rintro ⟨_, hmem, t, hterms, rfl⟩
    exact ⟨t, (h.mem t).mpr hmem, hterms⟩
  · rintro ⟨t, ht, hterms⟩
    exact ⟨p.row σ t, (h.mem t).mp ht, t, hterms, rfl⟩

theorem Represents.holds_atomOf (h : p.Represents M σ A) {vars : List String} :
    (p.atomOf vars).Holds M σ ↔ vars.map σ ∈ A := by
  unfold atomOf
  rw [h.holds_atom]
  simp only [Datalog.forall₂_matches_vars, exists_eq_right']

theorem Represents.holds_wildcardAtom (h : p.Represents M σ A) :
    p.wildcardAtom.Holds M σ ↔ A.Nonempty := by
  unfold wildcardAtom
  rw [h.holds_atom]
  unfold wildcards
  simp only [Datalog.forall₂_matches_wildcards]
  constructor
  · rintro ⟨t, ht, -⟩
    exact ⟨t, ht⟩
  · rintro ⟨t, ht⟩
    exact ⟨t, ht, h.length_eq ht⟩

/-! ## Aggregates over a predicate -/

theorem Represents.holds_count (h : p.Represents M σ A) {result : String} :
    Aggregate.Holds M σ ⟨result, .count, none, p.wildcardAtom⟩ ↔ σ result = .number A.card := by
  have hselects : ∀ tuple, Aggregate.Selects M σ ⟨result, .count, none, p.wildcardAtom⟩ tuple ↔
      tuple ∈ A.image (p.row σ) := by
    intro tuple
    unfold Aggregate.Selects wildcardAtom
    rw [matches_atom, Finset.mem_image]
    unfold wildcards
    simp only [Datalog.forall₂_matches_wildcards]
    constructor
    · rintro ⟨hmem, t, -, rfl⟩
      exact ⟨t, (h.mem t).mpr hmem, rfl⟩
    · rintro ⟨t, ht, rfl⟩
      exact ⟨(h.mem t).mp ht, t, h.length_eq ht, rfl⟩
  have hcard : (A.image (p.row σ)).card = A.card :=
    Finset.card_image_of_injective A (p.row_injective σ)
  constructor
  · rintro ⟨-, rows, hrows, hresult⟩
    have hall : rows = A.image (p.row σ) :=
      Finset.ext fun tuple => (hrows tuple).trans (hselects tuple)
    rw [← hcard, ← hall]
    exact hresult
  · intro hresult
    refine ⟨rfl, A.image (p.row σ), fun tuple => (hselects tuple).symm, ?_⟩
    rw [hcard]
    exact hresult

/-- The rows of a set of tuples, each with the number in its last column. -/
def numbered (σ : Assignment) (p : Predicate) (A : Rows) : Finset (Tuple × Int) :=
  A.biUnion fun t => ((Rows.lastNumber? t).map fun n => (p.row σ t, n)).toFinset

theorem mem_numbered {row : Tuple × Int} :
    row ∈ p.numbered σ A ↔ ∃ t ∈ A, Rows.lastNumber? t = some row.2 ∧ p.row σ t = row.1 := by
  obtain ⟨tuple, n⟩ := row
  simp only [numbered, Finset.mem_biUnion, Option.mem_toFinset, Option.mem_def,
    Option.map_eq_some_iff, Prod.mk.injEq]
  constructor
  · rintro ⟨t, ht, m, hm, hrow, rfl⟩
    exact ⟨t, ht, hm, hrow⟩
  · rintro ⟨t, ht, hn, hrow⟩
    exact ⟨t, ht, n, hn, hrow, rfl⟩

theorem exists_mem_numbered {n : Int} :
    (∃ row ∈ p.numbered σ A, row.2 = n) ↔ n ∈ A.lastNumbers := by
  rw [Rows.mem_lastNumbers]
  constructor
  · rintro ⟨row, hrow, rfl⟩
    obtain ⟨t, ht, hn, -⟩ := mem_numbered.mp hrow
    exact ⟨t, ht, hn⟩
  · rintro ⟨t, ht, hn⟩
    exact ⟨(p.row σ t, n), mem_numbered.mpr ⟨t, ht, hn, rfl⟩, rfl⟩

theorem forall_mem_numbered {P : Int → Prop} :
    (∀ row ∈ p.numbered σ A, P row.2) ↔ ∀ n ∈ A.lastNumbers, P n := by
  constructor
  · intro hall n hn
    obtain ⟨row, hrow, rfl⟩ := (exists_mem_numbered (p := p) (σ := σ)).mpr hn
    exact hall row hrow
  · intro hall row hrow
    exact hall row.2 (exists_mem_numbered.mp ⟨row, hrow, rfl⟩)

theorem sum_numbered (σ : Assignment) (p : Predicate) (A : Rows) :
    ∑ row ∈ p.numbered σ A, row.2 = ∑ t ∈ A, (Rows.lastNumber? t).getD 0 := by
  unfold numbered
  rw [Finset.sum_biUnion]
  · refine Finset.sum_congr rfl fun t _ => ?_
    cases Rows.lastNumber? t <;> simp
  · intro s _ t _ hne
    rw [Function.onFun, Finset.disjoint_left]
    intro row hs ht
    simp only [Option.mem_toFinset, Option.mem_def, Option.map_eq_some_iff] at hs ht
    obtain ⟨m, -, rfl⟩ := hs
    obtain ⟨n, -, heq⟩ := ht
    exact hne (p.row_injective σ (Prod.mk.inj heq).1).symm

theorem gives_numbered {function : NumericAggregate} {n : Int} :
    (Compile.aggregateFunction function).Gives (p.numbered σ A) n ↔
      [.number n] ∈ A.aggregate function := by
  cases function with
  | min =>
      simp only [Compile.aggregateFunction, Datalog.AggregateFunction.Gives, Rows.aggregate,
        exists_mem_numbered, forall_mem_numbered (P := fun m => n ≤ m)]
      simp
  | max =>
      simp only [Compile.aggregateFunction, Datalog.AggregateFunction.Gives, Rows.aggregate,
        exists_mem_numbered, forall_mem_numbered (P := fun m => m ≤ n)]
      simp
  | sum =>
      simp [Compile.aggregateFunction, Datalog.AggregateFunction.Gives, Rows.aggregate,
        sum_numbered]

theorem forall₂_matches_last {v : String} (hcolumn : p.arity ≠ 0) :
    List.Forall₂ (Term.Matches σ) (p.wildcards.dropLast ++ [.var v]) t ↔
      t.length = p.arity ∧ t.getLast? = some (σ v) := by
  have hwildcards : p.wildcards.dropLast = List.replicate (p.arity - 1) .wildcard := by
    rw [wildcards, List.dropLast_replicate]
  rw [hwildcards, Datalog.forall₂_matches_append]
  simp only [Datalog.forall₂_matches_wildcards, List.forall₂_cons_left_iff,
    List.forall₂_nil_left_iff, Term.matches_var]
  constructor
  · rintro ⟨s, _, hs, ⟨_, _, rfl, rfl, rfl⟩, rfl⟩
    refine ⟨?_, by simp⟩
    rw [List.length_append, List.length_singleton, hs]
    omega
  · rintro ⟨hlength, hlast⟩
    obtain ⟨s, rfl⟩ := List.getLast?_eq_some_iff.mp hlast
    rw [List.length_append, List.length_singleton] at hlength
    exact ⟨s, [σ v], by omega, ⟨_, _, rfl, rfl, rfl⟩, rfl⟩

theorem Represents.holds_aggregate (h : p.Represents M σ A) (hcolumn : p.arity ≠ 0)
    {function : NumericAggregate} {result each : String} (heach : ∀ x, each ≠ paramVar x) :
    Aggregate.Holds M σ ⟨result, Compile.aggregateFunction function, some each,
      p.atom (p.wildcards.dropLast ++ [.var each])⟩ ↔ [σ result] ∈ A.aggregate function := by
  have hselects : ∀ row, Aggregate.SelectsNumber M σ ⟨result, Compile.aggregateFunction function,
      some each, p.atom (p.wildcards.dropLast ++ [.var each])⟩ each row ↔
        row ∈ p.numbered σ A := by
    intro row
    have hagree : Agree p.params (Function.update σ each (.number row.2)) σ := by
      intro x _
      exact Function.update_of_ne (heach x).symm _ _
    unfold Aggregate.SelectsNumber
    rw [matches_atom, mem_numbered]
    simp only [forall₂_matches_last hcolumn, row_congr hagree, Function.update_self,
      Rows.lastNumber?_eq_some]
    constructor
    · rintro ⟨hmem, t, ⟨-, hlast⟩, hrow⟩
      rw [hrow] at hmem
      exact ⟨t, (h.mem t).mpr hmem, hlast, hrow.symm⟩
    · rintro ⟨t, ht, hlast, hrow⟩
      refine ⟨?_, t, ⟨h.length_eq ht, hlast⟩, hrow.symm⟩
      rw [← hrow]
      exact (h.mem t).mp ht
  constructor
  · rintro ⟨rows, hrows, n, hgives, hresult⟩
    have hall : rows = p.numbered σ A := Finset.ext fun row => (hrows row).trans (hselects row)
    rw [hall, gives_numbered] at hgives
    have hvalue : σ result = .number n := hresult
    rwa [hvalue]
  · intro hmem
    obtain ⟨n, hn⟩ := Rows.exists_number_of_mem_aggregate hmem
    refine ⟨p.numbered σ A, fun row => (hselects row).symm, n, ?_, (List.cons.inj hn).1⟩
    rw [gives_numbered, ← hn]
    exact hmem

end Predicate

/-! ## Assignments of fresh variables -/

namespace Datalog

/-- Gives values to some variables. -/
def Assignment.assign (σ : Assignment) (vars : List String) (values : Tuple) : Assignment :=
  fun v => ((vars.zip values).lookup v).getD (σ v)

variable {vars : List String} {values : Tuple}

theorem Assignment.assign_of_notMem {v : String} (hv : v ∉ vars) :
    σ.assign vars values v = σ v :=
  override_of_notMem hv

theorem Assignment.map_assign (hnodup : vars.Nodup) (hlength : vars.length = values.length) :
    vars.map (σ.assign vars values) = values :=
  map_override hnodup hlength

section Scalars

variable {scalars : List String}

theorem Assignment.assign_paramVar_of_notMem {x : String} (hx : x ∉ scalars) :
    σ.assign (scalars.map paramVar) values (paramVar x) = σ (paramVar x) := by
  apply Assignment.assign_of_notMem
  simpa using hx

theorem Assignment.map_assign_paramVar (hnodup : scalars.Nodup)
    (hlength : scalars.length = values.length) :
    (scalars.map paramVar).map (σ.assign (scalars.map paramVar) values) = values :=
  Assignment.map_assign (hnodup.map paramVar_injective) (by rw [List.length_map, hlength])

end Scalars

end Datalog

/-- Fresh variables can be given any values without a change to a parameter. -/
theorem FreshNames.Issued.exists_assignment {names later : FreshNames}
    {relations vars : List String} (hissued : FreshNames.Issued names relations vars later)
    (σ : Assignment) (values : Tuple) (hlength : vars.length = values.length) :
    ∃ τ : Assignment, (∀ x, σ (paramVar x) = τ (paramVar x)) ∧ vars.map τ = values :=
  Compile.exists_override hissued σ values hlength

/-! ## Relations whose rules have one head -/

/-- The relation of a predicate holds what its own rules derive. -/
def Compile.Definition.Modelled (ops : Operations) (M : Interpretation)
    (d : Compile.Definition) : Prop :=
  M d.predicate.name = Datalog.least ops d.rules ∅ M d.predicate.name

namespace Predicate

/-- A rule derives a row when its variables can take the values of the tuple while the parameters
are those of the row. -/
theorem derives_row_iff {vars : List String} {body : List Literal}
    (hlength : vars.length = t.length) :
    Rule.Derives ops M ⟨p.atomOf vars, body⟩ (p.row σ t) ↔
      ∃ τ, Agree p.params σ τ ∧ vars.map τ = t ∧ ∀ l ∈ body, l.Holds ops M τ := by
  simp only [Rule.Derives, matches_atomOf_row hlength, and_assoc]

theorem sized_of_rules {vars : List String} {rules : List Rule}
    (hmodel : M p.name = Datalog.least ops rules ∅ M p.name)
    (hhead : ∀ rule ∈ rules, rule.head = p.atomOf vars) (hlength : vars.length = p.arity) :
    ∀ tuple ∈ M p.name, tuple.length = p.arity + p.params.length := by
  intro tuple htuple
  rw [hmodel] at htuple
  refine htuple {tuple | tuple.length = p.arity + p.params.length} ⟨Set.empty_subset _, ?_⟩
  rintro rule hrule - tuple ⟨τ, hmatches, -⟩
  rw [hhead rule hrule] at hmatches
  exact length_of_matches_atomOf hlength hmatches

theorem represents_of_rules {known vars : List String} {rules : List Rule}
    (hmodel : M p.name = Datalog.least ops rules ∅ M p.name) (hnew : p.name ∉ known)
    (hhead : ∀ rule ∈ rules, rule.head = p.atomOf vars)
    (hreads : ∀ rule ∈ rules, ∀ name ∈ rule.bodyRelations, name ∈ known)
    (hlength : vars.length = p.arity)
    (hmem : ∀ t, t ∈ A ↔ ∃ rule ∈ rules, ∃ τ, Agree p.params σ τ ∧ vars.map τ = t ∧
      ∀ l ∈ rule.body, l.Holds ops M τ) :
    p.Represents M σ A := by
  have hleast : ∀ tuple, tuple ∈ M p.name ↔ ∃ rule ∈ rules, rule.Derives ops M tuple := by
    intro tuple
    rw [hmodel, Datalog.mem_least_of_not_recursive]
    · constructor
      · rintro (hfact | ⟨rule, hrule, -, hderives⟩)
        · exact hfact.elim
        · exact ⟨rule, hrule, hderives⟩
      · rintro ⟨rule, hrule, hderives⟩
        exact .inr ⟨rule, hrule, by rw [hhead rule hrule, relation_atomOf], hderives⟩
    · intro rule hrule _ hown
      exact hnew (hreads rule hrule p.name hown)
  have hsized := sized_of_rules hmodel hhead hlength
  refine ⟨hsized, fun t => ?_⟩
  have hderives : ∀ rule ∈ rules, t.length = p.arity → (rule.Derives ops M (p.row σ t) ↔
      ∃ τ, Agree p.params σ τ ∧ vars.map τ = t ∧ ∀ l ∈ rule.body, l.Holds ops M τ) := by
    intro rule hrule ht
    rw [← derives_row_iff (hlength.trans ht.symm), ← hhead rule hrule]
  rw [hmem t, hleast]
  constructor
  · rintro ⟨rule, hrule, τ, hagree, rfl, hbody⟩
    have ht : (vars.map τ).length = p.arity := by rw [List.length_map, hlength]
    exact ⟨rule, hrule, (hderives rule hrule ht).mpr ⟨τ, hagree, rfl, hbody⟩⟩
  · rintro ⟨rule, hrule, hrow⟩
    have ht := hsized _ ((hleast _).mpr ⟨rule, hrule, hrow⟩)
    rw [length_row, Nat.add_right_cancel_iff] at ht
    exact ⟨rule, hrule, (hderives rule hrule ht).mp hrow⟩

end Predicate

end RelQuery
