import Mathlib.SetTheory.Cardinal.NatCard
import RelQuery.Proofs.Datalog.Choice
import RelQuery.Proofs.Meaning.Representation
import RelQuery.Proofs.Relation.Validation

/-!
# Ranks are dense

The rules that number a relation derive every tuple with rank zero and every tuple with the rank
after one that is taken.  The choice domains of the relation let a tuple have one rank and a rank
one tuple, among the rows with the same values of the parameters.  So whatever an engine inserts,
it stops after at most one insertion for each tuple, and then the rows with the same parameters have
the ranks from zero on, each of them once.
-/

namespace RelQuery

open Datalog (Assignment Atom Decl Interpretation Literal Operations Rule ScalarExpr Term restrict)

theorem Scope.names_of_declare {scope : Scope} {p : Predicate} {domains : List (List String)}
    {decl : Decl} (h : scope.declare p domains = .ok decl) :
    decl.names = p.attributeNames ∧ decl.relation = p.name ∧ decl.choiceDomains = domains := by
  simp only [declare, except_bind_eq_ok, except_pure_eq_ok] at h
  obtain ⟨types, htypes, rfl⟩ := h
  refine ⟨?_, rfl, rfl⟩
  have hlength : types.length = p.params.length :=
    (mapM_eq_ok_iff.mp htypes).length_eq.symm
  have hnames : p.attributeNames.length = (p.types ++ types).length := by
    simp [Predicate.attributeNames, Predicate.types, hlength]
  rw [Decl.names, List.map_map]
  exact List.map_fst_zip hnames.le

namespace Predicate

variable {p : Predicate} {σ τ : Assignment} {t u : Tuple}

/-- The values of the parameters of a row. -/
def slots (p : Predicate) (u : Tuple) : Tuple :=
  u.drop p.arity

/-- A row under some values of the parameters. -/
def IsRow (p : Predicate) (u : Tuple) : Prop :=
  ∃ σ t, t.length = p.arity ∧ u = p.row σ t

theorem slots_row (hlength : t.length = p.arity) :
    p.slots (p.row σ t) = p.params.map fun x => σ (paramVar x) := by
  rw [slots, row, List.drop_left' hlength]

theorem row_take (hslots : p.slots u = p.params.map fun x => σ (paramVar x)) :
    p.row σ (u.take p.arity) = u := by
  rw [row, ← hslots, slots, List.take_append_drop]

theorem IsRow.eq_row (h : p.IsRow u) (hslots : p.slots u = p.params.map fun x => σ (paramVar x)) :
    ∃ t, t.length = p.arity ∧ u = p.row σ t := by
  obtain ⟨τ, t, hlength, rfl⟩ := h
  rw [slots_row hlength] at hslots
  exact ⟨t, hlength, by rw [row, row, hslots]⟩

theorem holds_atomOf_iff {I : Interpretation} {vars : List String} :
    (p.atomOf vars).Holds I σ ↔ p.row σ (vars.map σ) ∈ I p.name := by
  simp only [Atom.Holds, atomOf, matches_atom, Datalog.forall₂_matches_vars, relation_atom]
  constructor
  · rintro ⟨_, hmem, _, rfl, rfl⟩
    exact hmem
  · intro hmem
    exact ⟨_, hmem, _, rfl, rfl⟩

end Predicate

namespace Compile

open FreshNames (Issued varName)

/-! ## Choice domains of a rank -/

section Domains

variable {a ranked : Predicate} {u : Tuple} {x : Value}

def laterNames (a : Predicate) : List String :=
  a.columns.mapIdx fun k column => varName column.stem (k + 1)

theorem mem_laterNames {name : String} (h : name ∈ laterNames a) :
    ∃ stem k, name = varName stem (k + 1) := by
  obtain ⟨k, hk, rfl⟩ := List.mem_mapIdx.mp h
  exact ⟨_, k, rfl⟩

theorem varName_notMem_params (stem : String) (k : Nat) (params : List String) :
    varName stem k ∉ params.map paramVar := by
  intro hmem
  obtain ⟨scalar, -, heq⟩ := List.mem_map.mp hmem
  exact FreshNames.varName_ne_paramVar stem k scalar heq.symm

variable (hcolumns : ranked.columns = .named .number "idx" :: a.columns)
variable (hparams : ranked.params = a.params)

include hcolumns hparams

theorem attributeNames_ranked :
    ranked.attributeNames = varName (Column.named .number "idx").stem 0 ::
      (laterNames a ++ a.params.map paramVar) := by
  rw [Predicate.attributeNames, hcolumns, hparams, List.mapIdx_cons]
  rfl

/-- The first domain holds everything but the rank. -/
theorem restrict_tail (hu : a.IsRow u) :
    restrict ranked.attributeNames ranked.attributeNames.tail (x :: u) = u := by
  obtain ⟨σ, t, hlength, rfl⟩ := hu
  rw [attributeNames_ranked hcolumns hparams, List.tail_cons, Datalog.restrict_cons_of_notMem]
  · refine Datalog.restrict_of_subset ?_ (List.Subset.refl _)
    rw [Predicate.length_row, hlength]
    simp [laterNames, Predicate.arity]
  · rw [List.mem_append]
    rintro (hlater | hparam)
    · obtain ⟨stem, k, heq⟩ := mem_laterNames hlater
      have hnumber := FreshNames.number_eq_of_varName_eq heq
      omega
    · exact varName_notMem_params _ _ _ hparam

/-- The second domain holds the rank and the parameters. -/
theorem restrict_rank (hu : a.IsRow u) :
    restrict ranked.attributeNames (ranked.attributeNames.take 1 ++ a.params.map paramVar)
      (x :: u) = x :: a.slots u := by
  obtain ⟨σ, t, hlength, rfl⟩ := hu
  rw [Predicate.slots_row hlength, attributeNames_ranked hcolumns hparams, List.take_succ_cons,
    List.take_zero, List.cons_append, List.nil_append,
    Datalog.restrict_cons_of_mem List.mem_cons_self, Predicate.row,
    Datalog.restrict_append (by rw [hlength]; simp [laterNames, Predicate.arity]),
    Datalog.restrict_of_disjoint, Datalog.restrict_of_subset, List.nil_append]
  · simp
  · exact List.subset_cons_self _ _
  · intro name hname hmem
    obtain ⟨stem, k, rfl⟩ := mem_laterNames hname
    rcases List.mem_cons.mp hmem with heq | hparam
    · have hnumber := FreshNames.number_eq_of_varName_eq heq
      omega
    · exact varName_notMem_params _ _ _ hparam

end Domains

/-! ## Rules of a rank -/

section Rules

variable {a ranked : Predicate} {names later : FreshNames} {relations vars : List String}
variable {previous next : String} {ops : Operations} {M : Interpretation} {A R : Finset Tuple}

def rankRules (a ranked : Predicate) (vars : List String) (previous next : String) : List Rule :=
  [⟨ranked.atom (.number 0 :: vars.map .var), [.positive (a.atomOf vars)]⟩,
    ⟨ranked.atomOf (next :: vars),
      [.positive (ranked.atom (.var previous :: a.wildcards)), .positive (a.atomOf vars),
        .assign next (successor previous)]⟩]

theorem eval_successor {σ : Assignment} {v : String} {value : Value} :
    (successor v).eval ops σ = some value ↔
      ∃ i j, σ v = .number i ∧ ops .add i 1 = some j ∧ value = .number j := by
  simp only [successor, ScalarExpr.eval, Term.eval, Option.bind_eq_bind, Option.bind_some]
  cases hv : σ v with
  | number i =>
      simp only [Operations.eval, Option.map_eq_some_iff, Value.number.injEq]
      constructor
      · rintro ⟨j, hj, rfl⟩
        exact ⟨i, j, rfl, hj, rfl⟩
      · rintro ⟨_, j, rfl, hj, rfl⟩
        exact ⟨j, hj, rfl⟩
  | symbol s => simp [Operations.eval]

/-- A rank that a rule gives to a row: zero, or the number after a rank with the same parameters. -/
def NextRank (ops : Operations) (a : Predicate) (R : Finset Tuple) (u : Tuple) (j : Int) : Prop :=
  j = 0 ∨ ∃ i w, .number i :: w ∈ R ∧ a.IsRow w ∧ a.slots w = a.slots u ∧ ops .add i 1 = some j

theorem row_ranked (hparams : ranked.params = a.params) (σ : Assignment) (x : Value) (t : Tuple) :
    ranked.row σ (x :: t) = x :: a.row σ t := by
  rw [Predicate.row, Predicate.row, hparams, List.cons_append]

/-- Some row with the same parameters has the rank that the variable stands for. -/
theorem holds_previous_iff (hparams : ranked.params = a.params) {σ : Assignment} :
    (ranked.atom (.var previous :: a.wildcards)).Holds (Function.update M ranked.name R) σ ↔
      ∃ w, w.length = a.arity ∧ σ previous :: a.row σ w ∈ R := by
  simp only [Atom.Holds, Predicate.matches_atom, List.forall₂_cons_left_iff, Predicate.wildcards,
    Datalog.forall₂_matches_wildcards, Term.matches_var, Predicate.relation_atom,
    Function.update_self]
  constructor
  · rintro ⟨_, hmem, _, ⟨_, w, rfl, hw, rfl⟩, rfl⟩
    rw [row_ranked hparams] at hmem
    exact ⟨w, hw, hmem⟩
  · rintro ⟨w, hw, hmem⟩
    exact ⟨_, hmem, _, ⟨_, w, rfl, hw, rfl⟩, (row_ranked hparams σ _ w).symm⟩

variable (hissued : Issued names relations (vars ++ [previous, next]) later)
variable (hlength : vars.length = a.arity) (hparams : ranked.params = a.params)
variable (hne : a.name ≠ ranked.name) (hA : M a.name = A)

include hne hA

theorem holds_operand_iff {σ : Assignment} :
    (a.atomOf vars).Holds (Function.update M ranked.name R) σ ↔ a.row σ (vars.map σ) ∈ A := by
  rw [Predicate.holds_atomOf_iff, Function.update_of_ne hne, hA]
  rfl

include hissued hlength hparams

theorem derives_first_iff {tuple : Tuple} :
    Rule.Derives ops (Function.update M ranked.name R)
      ⟨ranked.atom (.number 0 :: vars.map .var), [.positive (a.atomOf vars)]⟩ tuple ↔
      ∃ u ∈ A, a.IsRow u ∧ tuple = .number 0 :: u := by
  simp only [Rule.Derives, Predicate.matches_atom, List.forall_mem_singleton,
    Literal.holds_positive, holds_operand_iff hne hA, List.forall₂_cons_left_iff,
    Datalog.forall₂_matches_vars]
  constructor
  · rintro ⟨σ, ⟨_, ⟨x, _, hx, rfl, rfl⟩, rfl⟩, hu⟩
    cases hx
    exact ⟨_, hu, ⟨σ, _, by rw [List.length_map, hlength], rfl⟩, row_ranked hparams σ _ _⟩
  · rintro ⟨_, hu, ⟨σ, t, ht, rfl⟩, rfl⟩
    obtain ⟨τ, hagree, hmap⟩ := hissued.exists_assignment σ (t ++ [.number 0, .number 0])
      (by simp [hlength, ht])
    rw [List.map_append] at hmap
    obtain ⟨rfl, -⟩ := List.append_inj hmap (by rw [List.length_map, hlength, ht])
    rw [Predicate.row_congr fun x _ => hagree x] at hu ⊢
    exact ⟨τ, ⟨_, ⟨_, _, rfl, rfl, rfl⟩, (row_ranked hparams τ _ _).symm⟩, hu⟩

theorem derives_next_iff {tuple : Tuple} :
    Rule.Derives ops (Function.update M ranked.name R)
      ⟨ranked.atomOf (next :: vars),
        [.positive (ranked.atom (.var previous :: a.wildcards)), .positive (a.atomOf vars),
          .assign next (successor previous)]⟩ tuple ↔
      ∃ u ∈ A, a.IsRow u ∧ ∃ i j w, .number i :: w ∈ R ∧ a.IsRow w ∧ a.slots w = a.slots u ∧
        ops .add i 1 = some j ∧ tuple = .number j :: u := by
  simp only [Rule.Derives, List.forall_mem_cons, Literal.holds_positive, Literal.holds_assign,
    eval_successor, holds_previous_iff hparams, holds_operand_iff hne hA]
  constructor
  · rintro ⟨σ, hhead, ⟨w, hw, hmem⟩, hu, ⟨i, j, hi, hadd, hj⟩, -⟩
    obtain ⟨_, hvars, rfl⟩ := Predicate.matches_atom.mp hhead
    rw [Datalog.forall₂_matches_vars] at hvars
    subst hvars
    have ht : (vars.map σ).length = a.arity := by rw [List.length_map, hlength]
    rw [hi] at hmem
    refine ⟨_, hu, ⟨σ, _, ht, rfl⟩, i, j, _, hmem, ⟨σ, w, hw, rfl⟩, ?_, hadd, ?_⟩
    · rw [Predicate.slots_row hw, Predicate.slots_row ht]
    · rw [List.map_cons, hj, row_ranked hparams]
  · rintro ⟨_, hu, ⟨σ, t, ht, rfl⟩, i, j, _, hmem, hrow', hslots, hadd, rfl⟩
    rw [Predicate.slots_row ht] at hslots
    obtain ⟨w, hw, rfl⟩ := hrow'.eq_row hslots
    obtain ⟨τ, hagree, hmap⟩ := hissued.exists_assignment σ (t ++ [.number i, .number j])
      (by simp [hlength, ht])
    rw [List.map_append] at hmap
    obtain ⟨rfl, hlast⟩ := List.append_inj hmap (by rw [List.length_map, hlength, ht])
    obtain ⟨hi, hj⟩ : τ previous = .number i ∧ τ next = .number j := by simpa using hlast
    have hrow : ∀ t, a.row σ t = a.row τ t := Predicate.row_congr fun x _ => hagree x
    rw [hrow, ← hi] at hmem
    rw [hrow] at hu ⊢
    refine ⟨τ, Predicate.matches_atom.mpr ⟨_, ?_, (row_ranked hparams τ _ _).symm⟩, ⟨w, hw, hmem⟩,
      hu, ⟨i, j, hi, hadd, hj⟩, by simp⟩
    rw [Datalog.forall₂_matches_vars, List.map_cons, hj]

/-- The rows that a rule of a rank derives. -/
theorem derives_rankRules_iff {tuple : Tuple} :
    (∃ rule ∈ rankRules a ranked vars previous next,
      rule.Derives ops (Function.update M ranked.name R) tuple) ↔
      ∃ u ∈ A, a.IsRow u ∧ ∃ j, NextRank ops a R u j ∧ tuple = .number j :: u := by
  simp only [rankRules, List.mem_cons, List.not_mem_nil, or_false, exists_eq_or_imp, exists_eq_left,
    derives_first_iff hissued hlength hparams hne hA,
    derives_next_iff hissued hlength hparams hne hA]
  constructor
  · rintro (⟨u, hu, hrow, rfl⟩ | ⟨u, hu, hrow, i, j, w, hmem, hw, hslots, hadd, rfl⟩)
    · exact ⟨u, hu, hrow, 0, .inl rfl, rfl⟩
    · exact ⟨u, hu, hrow, j, .inr ⟨i, w, hmem, hw, hslots, hadd⟩, rfl⟩
  · rintro ⟨u, hu, hrow, j, rfl | ⟨i, w, hmem, hw, hslots, hadd⟩, rfl⟩
    · exact .inl ⟨u, hu, hrow, rfl⟩
    · exact .inr ⟨u, hu, hrow, i, j, w, hmem, hw, hslots, hadd, rfl⟩

end Rules

/-! ## Every run keeps the ranks dense -/

/-- What an engine has while it numbers the rows `A` of a predicate. -/
structure Ranks (a : Predicate) (A R : Finset Tuple) : Prop where
  rows : ∀ tuple ∈ R, ∃ (k : Nat) (u : Tuple), u ∈ A ∧ a.IsRow u ∧ tuple = .number k :: u
  /-- A row has one rank. -/
  single : ∀ {k l : Nat} {u : Tuple}, .number k :: u ∈ R → .number l :: u ∈ R → k = l
  /-- Rows with the same parameters have different ranks. -/
  distinct : ∀ {k : Nat} {u v : Tuple}, .number k :: u ∈ R → .number k :: v ∈ R →
    a.slots u = a.slots v → u = v
  /-- Below every rank there is another one. -/
  dense : ∀ {k : Nat} {u : Tuple}, .number (k + 1 : Nat) :: u ∈ R →
    ∃ v, .number k :: v ∈ R ∧ a.slots v = a.slots u

section Ranks

variable {a : Predicate} {A R : Finset Tuple} {k : Nat} {u : Tuple}

theorem ranks_empty (a : Predicate) (A : Finset Tuple) : Ranks a A ∅ where
  rows := by simp
  single := by simp
  distinct := by simp
  dense := by simp

/-- Every smaller rank is taken. -/
theorem Ranks.exists_of_le (h : Ranks a A R) (hu : .number k :: u ∈ R) {l : Nat} (hl : l ≤ k) :
    ∃ v, .number l :: v ∈ R ∧ a.slots v = a.slots u := by
  induction k generalizing u with
  | zero =>
      obtain rfl : l = 0 := by omega
      exact ⟨u, hu, rfl⟩
  | succ k ih =>
      by_cases hlast : l = k + 1
      · subst hlast
        exact ⟨u, hu, rfl⟩
      · obtain ⟨v, hv, hslots⟩ := h.dense hu
        obtain ⟨w, hw, hslots'⟩ := ih hv (by omega)
        exact ⟨w, hw, hslots'.trans hslots⟩

theorem Ranks.mem_of_cons_mem (h : Ranks a A R) {x : Value} (hu : x :: u ∈ R) :
    u ∈ A ∧ a.IsRow u := by
  obtain ⟨k, v, hv, hrow, heq⟩ := h.rows _ hu
  obtain ⟨-, rfl⟩ := List.cons.inj heq
  exact ⟨hv, hrow⟩

/-- There are more rows with the same parameters than the rank of one of them says. -/
theorem Ranks.rank_lt (h : Ranks a A R) (hu : .number k :: u ∈ R) :
    k < (A.filter fun v => a.slots v = a.slots u).card := by
  choose! v hv hslots using fun l (hl : l ∈ Finset.range (k + 1)) =>
    h.exists_of_le hu (Nat.lt_succ_iff.mp (Finset.mem_range.mp hl))
  have hcard : (Finset.range (k + 1)).card ≤ (A.filter fun v => a.slots v = a.slots u).card := by
    refine Finset.card_le_card_of_injOn v ?_ ?_
    · intro l hl
      exact Finset.mem_coe.mpr (Finset.mem_filter.mpr
        ⟨(h.mem_of_cons_mem (hv l hl)).1, hslots l hl⟩)
    · intro l hl m hm heq
      have hl' := hv l hl
      rw [heq] at hl'
      exact h.single hl' (hv m hm)
  rwa [Finset.card_range] at hcard

theorem Ranks.rank_lt_card (h : Ranks a A R) (hu : .number k :: u ∈ R) : k < A.card :=
  (h.rank_lt hu).trans_le (Finset.card_filter_le _ _)

/-- There is a least rank that no row with the same parameters has. -/
theorem Ranks.exists_least_free (h : Ranks a A R) (u : Tuple) :
    ∃ k : Nat, (∀ v, .number k :: v ∈ R → a.slots v ≠ a.slots u) ∧
      ∀ l < k, ∃ v, .number l :: v ∈ R ∧ a.slots v = a.slots u := by
  classical
  have hfree : ∃ k : Nat, ∀ v, .number k :: v ∈ R → a.slots v ≠ a.slots u := by
    refine ⟨A.card, fun v hv _ => ?_⟩
    exact lt_irrefl _ (h.rank_lt_card hv)
  refine ⟨Nat.find hfree, Nat.find_spec hfree, ?_⟩
  intro l hl
  have htaken := Nat.find_min hfree hl
  push Not at htaken
  exact htaken

/-- No row is numbered twice. -/
theorem Ranks.card_le (h : Ranks a A R) : R.card ≤ A.card := by
  refine Finset.card_le_card_of_injOn List.tail ?_ ?_
  · intro tuple htuple
    obtain ⟨k, u, hu, -, rfl⟩ := h.rows tuple htuple
    exact hu
  · intro tuple htuple other hother heq
    obtain ⟨k, u, -, -, rfl⟩ := h.rows tuple htuple
    obtain ⟨l, v, -, -, rfl⟩ := h.rows other hother
    obtain rfl : u = v := heq
    rw [h.single htuple hother]

/-- A row without a rank may take one that no row with the same parameters has. -/
theorem Ranks.insert (h : Ranks a A R) (hu : u ∈ A) (hrow : a.IsRow u)
    (hnew : ∀ l : Nat, .number l :: u ∉ R)
    (hfree : ∀ v, .number k :: v ∈ R → a.slots v ≠ a.slots u)
    (hbelow : ∀ l, k = l + 1 → ∃ v, .number l :: v ∈ R ∧ a.slots v = a.slots u) :
    Ranks a A (insert (.number k :: u) R) where
  rows := by
    intro tuple htuple
    rcases Finset.mem_insert.mp htuple with rfl | htuple
    · exact ⟨k, u, hu, hrow, rfl⟩
    · exact h.rows tuple htuple
  single := by
    intro l m v hl hm
    simp only [Finset.mem_insert, List.cons.injEq, Value.number.injEq, Nat.cast_inj] at hl hm
    rcases hl with ⟨rfl, rfl⟩ | hl <;> rcases hm with ⟨hm, hv⟩ | hm
    · exact hm.symm
    · exact absurd hm (hnew m)
    · exact absurd (hv ▸ hl) (hnew l)
    · exact h.single hl hm
  distinct := by
    intro l v w hv hw hslots
    simp only [Finset.mem_insert, List.cons.injEq, Value.number.injEq, Nat.cast_inj] at hv hw
    rcases hv with ⟨rfl, rfl⟩ | hv <;> rcases hw with ⟨hl, rfl⟩ | hw
    · rfl
    · exact absurd hslots.symm (hfree w hw)
    · exact absurd hslots (hfree v (hl ▸ hv))
    · exact h.distinct hv hw hslots
  dense := by
    intro l v hv
    simp only [Finset.mem_insert, List.cons.injEq, Value.number.injEq, Nat.cast_inj] at hv
    rcases hv with ⟨hl, rfl⟩ | hv
    · obtain ⟨w, hw, hslots⟩ := hbelow l hl.symm
      exact ⟨w, Finset.mem_insert_of_mem hw, hslots⟩
    · obtain ⟨w, hw, hslots⟩ := h.dense hv
      exact ⟨w, Finset.mem_insert_of_mem hw, hslots⟩

end Ranks

/-- What the rules derive and the domains admit while the rows `A` of a predicate are numbered. -/
structure Numbering (ops : Operations) (M : Interpretation) (a : Predicate) (A : Finset Tuple)
    (decl : Decl) (rules : List Rule) : Prop where
  derives : ∀ {R : Finset Tuple} {tuple : Tuple},
    (∃ rule ∈ rules, rule.Derives ops (Function.update M decl.relation R) tuple) ↔
      ∃ u ∈ A, a.IsRow u ∧ ∃ j, NextRank ops a R u j ∧ tuple = .number j :: u
  admits : ∀ {R : Finset Tuple} {x : Value} {u : Tuple}, Ranks a A R → a.IsRow u →
    (decl.Admits R (x :: u) ↔ ∀ y v, y :: v ∈ R → v ≠ u ∧ ¬ (y = x ∧ a.slots v = a.slots u))
  /-- The ranks that are needed can be counted. -/
  counts : ∀ k : Nat, k < A.card → ops .add k 1 = some (k + 1)

theorem numbering_of_rank {a : Predicate} {names later : FreshNames} {d : Definition}
    (h : rank a names = .ok (d, later)) (hcovers : names.Covers a.name) {scope : Scope}
    {decl : Decl} (hdecl : scope.declare d.predicate d.choiceDomains = .ok decl) {ops : Operations}
    {M : Interpretation} {A : Finset Tuple} (hA : M a.name = A)
    (hcounts : ∀ k : Nat, k < A.card → ops .add k 1 = some (k + 1)) :
    Numbering ops M a A decl d.rules := by
  obtain ⟨ranked, vars, previous, next, hissued, -, hlength, hcolumns, hparams, rfl⟩ := rank_ok h
  obtain ⟨hnames, hrelation, hdomains⟩ := Scope.names_of_declare hdecl
  have hne : a.name ≠ ranked.name := by
    intro heq
    exact hissued.not_covers List.mem_cons_self (heq ▸ hcovers)
  refine ⟨?_, ?_, hcounts⟩
  · intro R tuple
    rw [hrelation]
    exact derives_rankRules_iff hissued hlength hparams hne hA
  · intro R x u hranks hu
    simp only [Decl.Admits, hnames, hdomains, List.forall_mem_cons, List.not_mem_nil, false_implies,
      implies_true, and_true, restrict_tail hcolumns hparams hu, restrict_rank hcolumns hparams hu]
    constructor
    · rintro ⟨htail, hrank⟩ y v hv
      have hrow := (hranks.mem_of_cons_mem hv).2
      have hne := htail _ hv
      have hne' := hrank _ hv
      rw [restrict_tail hcolumns hparams hrow] at hne
      rw [restrict_rank hcolumns hparams hrow] at hne'
      exact ⟨hne, fun heq => hne' (by rw [heq.1, heq.2])⟩
    · intro hall
      constructor
      · intro other hother
        obtain ⟨k, v, -, hrow, rfl⟩ := hranks.rows other hother
        rw [restrict_tail hcolumns hparams hrow]
        exact (hall _ v hother).1
      · intro other hother heq
        obtain ⟨k, v, -, hrow, rfl⟩ := hranks.rows other hother
        rw [restrict_rank hcolumns hparams hrow] at heq
        exact (hall _ v hother).2 (List.cons.inj heq)

namespace Numbering

variable {ops : Operations} {M : Interpretation} {a : Predicate} {A R : Finset Tuple} {decl : Decl}
variable {rules : List Rule} {n : Nat}

/-- One insertion keeps the ranks dense. -/
theorem ranks_insert (h : Numbering ops M a A decl rules) (hranks : Ranks a A R) {tuple : Tuple}
    (hinsertable : decl.Insertable ops M rules R tuple) : Ranks a A (insert tuple R) := by
  obtain ⟨u, hu, hrow, j, hj, rfl⟩ := h.derives.mp hinsertable.derived
  have hadmits := (h.admits hranks hrow).mp hinsertable.admitted
  have hbelow : ∃ k : Nat, j = k ∧
      ∀ l, k = l + 1 → ∃ v, .number l :: v ∈ R ∧ a.slots v = a.slots u := by
    rcases hj with rfl | ⟨i, w, hw, hrow', hslots, hadd⟩
    · exact ⟨0, rfl, by simp⟩
    · obtain ⟨l, v, -, -, heq⟩ := hranks.rows _ hw
      obtain ⟨hi, rfl⟩ := List.cons.inj heq
      cases hi
      rw [h.counts l (hranks.rank_lt_card hw)] at hadd
      refine ⟨l + 1, by simpa using hadd.symm, ?_⟩
      intro m hm
      obtain rfl : l = m := by omega
      exact ⟨w, hw, hslots⟩
  obtain ⟨k, rfl, hbelow⟩ := hbelow
  refine hranks.insert hu hrow ?_ ?_ hbelow
  · intro l hl
    exact (hadmits _ u hl).1 rfl
  · intro v hv hslots
    exact (hadmits _ v hv).2 ⟨rfl, hslots⟩

theorem ranks_of_run (h : Numbering ops M a A decl rules) (hrun : decl.Run ops M rules n R) :
    Ranks a A R := by
  induction hrun with
  | start => exact ranks_empty a A
  | insert _ hinsertable ih => exact h.ranks_insert ih hinsertable

/-- When nothing can be inserted any more, every row has a rank. -/
theorem exists_rank (h : Numbering ops M a A decl rules) (hranks : Ranks a A R)
    (hdone : ∀ tuple, ¬ decl.Insertable ops M rules R tuple) {u : Tuple} (hu : u ∈ A)
    (hrow : a.IsRow u) : ∃ k : Nat, .number k :: u ∈ R := by
  by_contra hnone
  push Not at hnone
  obtain ⟨k, hfree, hsmaller⟩ := hranks.exists_least_free u
  refine hdone (.number k :: u) ⟨hnone _, ?_, ?_⟩
  · refine h.derives.mpr ⟨u, hu, hrow, _, ?_, rfl⟩
    cases k with
    | zero => exact .inl rfl
    | succ l =>
        obtain ⟨v, hv, hslots⟩ := hsmaller l (Nat.lt_succ_self l)
        refine .inr ⟨l, v, hv, (hranks.mem_of_cons_mem hv).2, hslots, ?_⟩
        rw [h.counts l (hranks.rank_lt_card hv)]
        simp
  · refine (h.admits hranks hrow).mpr fun y v hv => ⟨?_, ?_⟩
    · rintro rfl
      obtain ⟨k, _, -, -, heq⟩ := hranks.rows _ hv
      rw [heq] at hv
      obtain ⟨-, rfl⟩ := List.cons.inj heq
      exact hnone k hv
    · rintro ⟨rfl, hslots⟩
      exact hfree v hv hslots

end Numbering

end Compile

namespace Predicate

variable {p : Predicate} {A : Finset Tuple} {σ : Assignment} {t : Tuple}

/-- The tuples that a predicate with the rows `A` has under `σ`. -/
def group (p : Predicate) (A : Finset Tuple) (σ : Assignment) : Set Tuple :=
  {t | p.row σ t ∈ A}

/-- Under `σ` the rows `R` number the tuples `T`: behind its first column each tuple stands once,
and the first column is a bijection from `T` to the numbers below the size of `T`. -/
def Numbers (p : Predicate) (R : Finset Tuple) (σ : Assignment) (T : Set Tuple) : Prop :=
  ∃ rank : T ≃ Fin T.ncard, ∀ t, p.row σ t ∈ R ↔ ∃ s : T, t = .number (rank s : Nat) :: s

theorem finite_group (p : Predicate) (A : Finset Tuple) (σ : Assignment) : (p.group A σ).Finite :=
  A.finite_toSet.preimage (p.row_injective σ).injOn

theorem length_of_mem_group (hsized : ∀ u ∈ A, u.length = p.arity + p.params.length)
    (ht : t ∈ p.group A σ) : t.length = p.arity := by
  have hrow := hsized _ ht
  rw [length_row] at hrow
  omega

theorem card_filter_le_ncard_group (ht : t.length = p.arity) :
    (A.filter fun v => p.slots v = p.slots (p.row σ t)).card ≤ (p.group A σ).ncard := by
  have hsubset : ((A.filter fun v => p.slots v = p.slots (p.row σ t) : Finset Tuple) : Set Tuple) ⊆
      p.row σ '' p.group A σ := by
    intro v hv
    obtain ⟨hv, hslots⟩ := Finset.mem_filter.mp (Finset.mem_coe.mp hv)
    rw [slots_row ht] at hslots
    have hrow := row_take hslots
    refine ⟨_, ?_, hrow⟩
    change p.row σ (v.take p.arity) ∈ A
    rw [hrow]
    exact hv
  calc _ = Set.ncard _ := (Set.ncard_coe_finset _).symm
    _ ≤ (p.row σ '' p.group A σ).ncard := Set.ncard_le_ncard hsubset ((finite_group p A σ).image _)
    _ = (p.group A σ).ncard := Set.ncard_image_of_injective _ (p.row_injective σ)

end Predicate

namespace Compile

/-- Dense ranks of all rows number the tuples under every assignment. -/
theorem Ranks.numbers {a ranked : Predicate} {A R : Finset Tuple} (h : Ranks a A R)
    (hparams : ranked.params = a.params) (hsized : ∀ u ∈ A, u.length = a.arity + a.params.length)
    (hall : ∀ u ∈ A, a.IsRow u → ∃ k : Nat, .number k :: u ∈ R) (σ : Assignment) :
    ranked.Numbers R σ (a.group A σ) := by
  have hlength : ∀ t : a.group A σ, t.1.length = a.arity := fun t =>
    Predicate.length_of_mem_group hsized t.2
  choose rank hrank using fun t : a.group A σ => hall _ t.2 ⟨σ, t, hlength t, rfl⟩
  have hlt : ∀ t, rank t < (a.group A σ).ncard := fun t =>
    (h.rank_lt (hrank t)).trans_le (Predicate.card_filter_le_ncard_group (hlength t))
  have hinjective : Function.Injective fun t => (⟨rank t, hlt t⟩ : Fin (a.group A σ).ncard) := by
    intro s t heq
    have hs := hrank s
    rw [show rank s = rank t from Fin.mk.inj heq] at hs
    have hslots : a.slots (a.row σ s) = a.slots (a.row σ t) := by
      rw [Predicate.slots_row (hlength s), Predicate.slots_row (hlength t)]
    exact Subtype.ext (a.row_injective σ (h.distinct hs (hrank t) hslots))
  have hbijective : Function.Bijective fun t => (⟨rank t, hlt t⟩ : Fin (a.group A σ).ncard) := by
    rw [Nat.bijective_iff_injective_and_card]
    exact ⟨hinjective, by rw [Nat.card_fin, Nat.card_coe_set_eq]⟩
  refine ⟨Equiv.ofBijective _ hbijective, fun t => ⟨?_, ?_⟩⟩
  · intro ht
    obtain ⟨k, u, hu, -, heq⟩ := h.rows _ ht
    cases t with
    | nil =>
        have hcount := congrArg List.length heq
        rw [Predicate.length_row, hparams, List.length_cons, hsized u hu, List.length_nil] at hcount
        omega
    | cons x t =>
        rw [row_ranked hparams] at ht heq
        obtain ⟨rfl, rfl⟩ := List.cons.inj heq
        exact ⟨⟨t, hu⟩, by rw [h.single ht (hrank ⟨t, hu⟩)]; rfl⟩
  · rintro ⟨s, rfl⟩
    rw [row_ranked hparams]
    exact hrank s

/-- A relation with a column can be numbered. -/
theorem exists_rank_ok {a : Predicate} (hcolumns : a.columns ≠ []) (names : FreshNames) :
    ∃ d later, rank a names = .ok (d, later) := by
  have harity : (a.arity != 0) = true := by
    simpa [Predicate.arity] using hcolumns
  have hensure : ensureColumn "Operand of index" a = .ok () := by
    rw [ensureColumn, ensure, if_pos harity]
  simp only [rank, hensure]
  exact ⟨_, _, rfl⟩

/-- Whatever an engine picks, the rows of a relation are numbered densely for all values of the
parameters, after at most as many insertions as there are rows. -/
theorem rank_numbers_groups {a : Predicate} {names : FreshNames} (hcolumns : a.columns ≠ [])
    (hcovers : names.Covers a.name) {scope : Scope} (hscope : ∀ x ∈ a.params, scope.IsScalar x) :
    ∃ d later decl, rank a names = .ok (d, later) ∧
      scope.declare d.predicate d.choiceDomains = .ok decl ∧
      ∀ (ops : Operations) (M : Interpretation) (A : Finset Tuple), M a.name = A →
        (∀ u ∈ A, u.length = a.arity + a.params.length) →
        (∀ k : Nat, k < A.card → ops .add k 1 = some (k + 1)) →
        ∀ n R, decl.Run ops M d.rules n R →
          n ≤ A.card ∧
          ((∀ tuple, ¬ decl.Insertable ops M d.rules R tuple) →
            ∀ σ, d.predicate.Numbers R σ (a.group A σ)) := by
  obtain ⟨d, later, hrank⟩ := exists_rank_ok hcolumns names
  obtain ⟨ranked, _, _, _, _, _, _, _, hparams, hd⟩ := rank_ok hrank
  have hpredicate : d.predicate.params = a.params := by
    rw [hd, hparams]
  obtain ⟨decl, hdecl⟩ := Scope.exists_declare (hpredicate ▸ hscope) d.choiceDomains
  refine ⟨d, later, decl, hrank, hdecl, ?_⟩
  intro ops M A hA hsized hcounts n R hrun
  have hnumbering := numbering_of_rank hrank hcovers hdecl hA hcounts
  have hranks := hnumbering.ranks_of_run hrun
  refine ⟨hrun.card_eq ▸ hranks.card_le, ?_⟩
  intro hdone σ
  exact hranks.numbers hpredicate hsized
    (fun u hu hrow => hnumbering.exists_rank hranks hdone hu hrow) σ

namespace Sample

/-- A predicate with two columns whose tuples depend on the scalar `side`. -/
def pairs : Predicate :=
  ⟨"pairs", [⟨.symbol, "x"⟩, ⟨.number, "y"⟩], ["side"]⟩

def pairScope : Scope :=
  ⟨[("side", .scalar ⟨.symbol, ⟨"sides", [.var "side_e"]⟩, []⟩)]⟩

/-- Two pairs on the one side and one on the other. -/
def pairRows : Finset Tuple :=
  {[.symbol "a", .number 1, .symbol "left"], [.symbol "b", .number 1, .symbol "left"],
    [.symbol "a", .number 1, .symbol "right"]}

def pairModel : Interpretation := fun name =>
  if name = "pairs" then pairRows else ∅

end Sample

theorem sample_rank_numbers_groups :
    ∃ d later decl, rank Sample.pairs (.avoiding ["pairs", "R1"]) = .ok (d, later) ∧
      Sample.pairScope.declare d.predicate d.choiceDomains = .ok decl ∧
      ∀ n R, decl.Run Datalog.ArithOp.eval Sample.pairModel d.rules n R → n ≤ 3 ∧
        ((∀ tuple, ¬ decl.Insertable Datalog.ArithOp.eval Sample.pairModel d.rules R tuple) →
          ∀ σ, d.predicate.Numbers R σ (Sample.pairs.group Sample.pairRows σ)) := by
  have hscope : ∀ x ∈ Sample.pairs.params, Sample.pairScope.IsScalar x := by
    simp only [Sample.pairs, List.forall_mem_singleton]
    exact ⟨_, rfl⟩
  have hcovers : (FreshNames.avoiding ["pairs", "R1"]).Covers Sample.pairs.name :=
    .inl List.mem_cons_self
  obtain ⟨d, later, decl, hrank, hdecl, hall⟩ :=
    rank_numbers_groups (by decide) hcovers hscope
  refine ⟨d, later, decl, hrank, hdecl, fun n R hrun => ?_⟩
  exact hall Datalog.ArithOp.eval Sample.pairModel Sample.pairRows rfl (by decide)
    (fun k _ => rfl) n R hrun

end Compile

end RelQuery
