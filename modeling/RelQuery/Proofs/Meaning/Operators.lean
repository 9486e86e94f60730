import RelQuery.Proofs.Meaning.Representation

/-!
# Operators preserve meaning

For every operator of plain expressions there is one lemma here: when the predicates of the operands
represent some sets of tuples, the predicate that the operator defines represents what the operator
makes of these sets.  The fresh variables of a rule can take any values, so every tuple of the set
is derived; and a rule that derives a row has taken its values from tuples of the operands.
-/

namespace RelQuery.Compile

open Datalog (Assignment Atom Interpretation Literal Operations Rule Term)
open FreshNames (Issued)
open Predicate (Agree)

variable {ops : Operations} {M : Interpretation} {σ : Assignment} {scope : Scope}
variable {known : List String} {names later : FreshNames} {a b result : Predicate}
variable {em : Emission} {A B C : Rows} {env : Environment}

/-! ## Scopes and environments -/

/-- Under `σ` every name of a scope stands for what it is in the environment, and every scalar has a
value that its atom allows. -/
structure Coherent (M : Interpretation) (σ : Assignment) (scope : Scope) (env : Environment) :
    Prop where
  relation : ∀ {name p}, scope.lookup name = some (.relation p) → p.Represents M σ (env name)
  scalar : ∀ {name s}, scope.lookup name = some (.scalar s) → env name = {[σ (paramVar name)]}
  constraint : ∀ {name s}, scope.lookup name = some (.scalar s) → s.constraint.Holds M σ

/-- Grounding literals hold wherever the scalars have their values. -/
theorem Coherent.holds_ground (h : Coherent M σ scope env) (hscope : scope.WellScoped)
    {params bound : List String} {literals : List Literal}
    (hground : scope.ground params bound = .ok literals) {τ : Assignment}
    (hagree : ∀ x, σ (paramVar x) = τ (paramVar x)) : ∀ l ∈ literals, l.Holds ops M τ := by
  intro l hl
  obtain ⟨x, s, hs, rfl⟩ := Scope.mem_ground hground hl
  have hvars : ∀ v ∈ s.constraint.vars, σ v = τ v := by
    intro v hv
    obtain ⟨y, -, rfl⟩ := List.mem_map.mp ((hscope.scalar_vars hs v).mp hv)
    exact hagree y
  exact (Atom.holds_congr hvars).mp (h.constraint hs)

theorem relation_of_mem_ground (hwithin : scope.Within known) {params bound : List String}
    {literals : List Literal} (hground : scope.ground params bound = .ok literals) :
    ∀ l ∈ literals, ∀ name ∈ l.relation?, name ∈ known := by
  intro l hl name hname
  obtain ⟨x, s, hs, rfl⟩ := Scope.mem_ground hground hl
  cases hname
  exact hwithin.scalar hs

/-- A tuple is in the set of a predicate when an atom of the predicate gives it, next to literals
that ground scalars. -/
theorem mem_iff_grounded (hscope : scope.WellScoped) (hcoherent : Coherent M σ scope env)
    {relations vars params grounded bound : List String} {literals : List Literal} {t : Tuple}
    (hissued : Issued names relations vars later) (ha : a.Represents M σ A)
    (hpa : a.params ⊆ params) (hvars : vars.length = a.arity)
    (hground : scope.ground grounded bound = .ok literals) :
    t ∈ A ↔ ∃ τ, Agree params σ τ ∧ vars.map τ = t ∧
      ∀ l ∈ .positive (a.atomOf vars) :: literals, l.Holds ops M τ := by
  constructor
  · intro ht
    obtain ⟨τ, hagree, rfl⟩ := hissued.exists_assignment σ t (hvars.trans (ha.length_eq ht).symm)
    refine ⟨τ, fun x _ => hagree x, rfl, List.forall_mem_cons.mpr ⟨?_, ?_⟩⟩
    · exact (ha.congr (fun x _ => hagree x) hpa).holds_atomOf.mpr ht
    · exact hcoherent.holds_ground hscope hground hagree
  · rintro ⟨τ, hagree, rfl, hbody⟩
    exact (ha.congr hagree hpa).holds_atomOf.mp (hbody _ List.mem_cons_self)

section Operators

variable (hcovers : ∀ name ∈ known, names.Covers name)

include hcovers

/-! ## Single definitions -/

theorem represents_single {label : String} {rules : List Rule} {vars fresh : List String}
    (hissued : Issued names [result.name] fresh later)
    (hmodel : ∀ d ∈ (Emission.single result label rules).definitions, d.Modelled ops M)
    (hhead : ∀ rule ∈ rules, rule.head = result.atomOf vars)
    (hreads : ∀ rule ∈ rules, ∀ l ∈ rule.body, ∀ name ∈ l.relation?, name ∈ known)
    (hlength : vars.length = result.arity)
    (hmem : ∀ t, t ∈ C ↔ ∃ rule ∈ rules, ∃ τ, Agree result.params σ τ ∧ vars.map τ = t ∧
      ∀ l ∈ rule.body, l.Holds ops M τ) :
    result.Represents M σ C := by
  have hnew : result.name ∉ known := by
    intro hknown
    exact hissued.not_covers List.mem_cons_self (hcovers _ hknown)
  have hown : M result.name = Datalog.least ops rules ∅ M result.name :=
    hmodel _ List.mem_cons_self
  refine Predicate.represents_of_rules hown hnew hhead ?_ hlength hmem
  intro rule hrule name hname
  obtain ⟨l, hl, hrelation⟩ := List.mem_filterMap.mp hname
  exact hreads rule hrule l hl name hrelation

/-- The form of `represents_single` for one rule. -/
theorem represents_rule {label : String} {vars fresh : List String} {body : List Literal}
    (hissued : Issued names [result.name] fresh later)
    (hmodel : ∀ d ∈ (Emission.single result label [⟨result.atomOf vars, body⟩]).definitions,
      d.Modelled ops M)
    (hreads : ∀ l ∈ body, ∀ name ∈ l.relation?, name ∈ known)
    (hlength : vars.length = result.arity)
    (hmem : ∀ t, t ∈ C ↔ ∃ τ, Agree result.params σ τ ∧ vars.map τ = t ∧
      ∀ l ∈ body, l.Holds ops M τ) :
    result.Represents M σ C := by
  refine represents_single hcovers hissued hmodel ?_ ?_ hlength fun t => (hmem t).trans ?_
  · simp
  · simpa using hreads
  · simp

/-- The form of `represents_rule` for a body of two atoms and some constraints. -/
theorem represents_atoms {label : String} {vars first second fresh : List String}
    {constraints : List Literal}
    (hissued : Issued names [result.name] fresh later)
    (hmodel : ∀ d ∈ (Emission.single result label [⟨result.atomOf vars,
      .positive (a.atomOf first) :: .positive (b.atomOf second) :: constraints⟩]).definitions,
      d.Modelled ops M)
    (ha : a.Represents M σ A) (hb : b.Represents M σ B)
    (hka : a.name ∈ known) (hkb : b.name ∈ known)
    (hpa : a.params ⊆ result.params) (hpb : b.params ⊆ result.params)
    (hconstraints : ∀ l ∈ constraints, l.relation? = none)
    (hlength : vars.length = result.arity)
    (hmem : ∀ t, t ∈ C ↔ ∃ τ : Assignment, Agree result.params σ τ ∧ vars.map τ = t ∧
      first.map τ ∈ A ∧ second.map τ ∈ B ∧ ∀ l ∈ constraints, l.Holds ops M τ) :
    result.Represents M σ C := by
  refine represents_rule hcovers hissued hmodel ?_ hlength fun t => (hmem t).trans ?_
  · intro l hl name hname
    rcases List.mem_cons.mp hl with rfl | hl
    · cases hname
      exact hka
    · rcases List.mem_cons.mp hl with rfl | hl
      · cases hname
        exact hkb
      · rw [hconstraints l hl] at hname
        cases hname
  · refine exists_congr fun τ => and_congr_right fun hagree => and_congr_right fun _ => ?_
    rw [List.forall_mem_cons, List.forall_mem_cons, Literal.holds_positive,
      Literal.holds_positive, (ha.congr hagree hpa).holds_atomOf,
      (hb.congr hagree hpb).holds_atomOf]

/-! ## Joins, products, applications and restrictions -/

section Binary

variable (ha : a.Represents M σ A) (hb : b.Represents M σ B)
variable (hka : a.name ∈ known) (hkb : b.name ∈ known)
variable (hmodel : ∀ d ∈ em.definitions, d.Modelled ops M)

include ha hb hka hkb hmodel

theorem represents_emitProduct (h : emitProduct a b names = .ok (em, later)) :
    em.result.predicate.Represents M σ (A.product B) := by
  obtain ⟨result, left, right, hissued, hleft, hright, hcolumns, hparams, rfl⟩ :=
    emitProduct_ok h
  refine represents_atoms hcovers hissued hmodel ha hb hka hkb
    (hparams ▸ subset_mergeParams_left ..) (hparams ▸ subset_mergeParams_right ..) (by simp) ?_
    fun t => ?_
  · rw [List.length_append, hleft, hright]
    simp [Predicate.arity, hcolumns]
  rw [Rows.mem_product]
  constructor
  · rintro ⟨s, hs, u, hu, rfl⟩
    have hlength : (left ++ right).length = (s ++ u).length := by
      simp [hleft, hright, ha.length_eq hs, hb.length_eq hu]
    obtain ⟨τ, hagree, hvars⟩ := hissued.exists_assignment σ (s ++ u) hlength
    refine ⟨τ, fun x _ => hagree x, hvars, ?_⟩
    rw [List.map_append] at hvars
    obtain ⟨rfl, rfl⟩ := List.append_inj hvars (by simp [hleft, ha.length_eq hs])
    exact ⟨hs, hu, by simp⟩
  · rintro ⟨τ, -, rfl, hs, hu, -⟩
    exact ⟨_, hs, _, hu, by rw [List.map_append]⟩

theorem represents_emitJoin (h : emitJoin a b names = .ok (em, later)) :
    em.result.predicate.Represents M σ (A.join B) := by
  obtain ⟨result, left, right, type, hissued, hleft, hright, hlast, hfirst, hcolumns, hparams,
    rfl⟩ := emitJoin_ok h
  have hcolumn : a.arity ≠ 0 := Predicate.arity_ne_zero_of_lastType hlast
  have hcolumn' : b.arity ≠ 0 := Predicate.arity_ne_zero_of_firstType hfirst
  obtain ⟨init, last, rfl⟩ : ∃ init last, left = init ++ [last] := by
    have hne : left ≠ [] := by
      rintro rfl
      exact hcolumn hleft.symm
    exact ⟨_, _, (List.dropLast_append_getLast hne).symm⟩
  obtain ⟨first, rest, rfl⟩ : ∃ first rest, right = first :: rest := by
    cases right with
    | nil => exact (hcolumn' hright.symm).elim
    | cons first rest => exact ⟨first, rest, rfl⟩
  simp only [List.dropLast_concat, List.tail_cons, List.getLast?_concat, Option.toList_some,
    List.singleton_append] at hmodel ⊢
  rw [List.length_append, List.length_singleton] at hleft
  rw [List.length_cons] at hright
  change result.Represents M σ (A.join B)
  refine represents_atoms hcovers hissued hmodel ha hb hka hkb
    (hparams ▸ subset_mergeParams_left ..) (hparams ▸ subset_mergeParams_right ..) (by simp) ?_
    fun t => ?_
  · simp only [Predicate.arity, hcolumns, List.length_append, List.length_dropLast,
      List.length_tail] at hleft hright ⊢
    omega
  rw [Rows.mem_join]
  constructor
  · rintro ⟨s, hs, u, hu, hne, hmatch, rfl⟩
    have hlength : ((init ++ [last]) ++ (first :: rest)).length = (s ++ u).length := by
      rw [List.length_append, List.length_append, List.length_append, ha.length_eq hs,
        hb.length_eq hu, ← hleft, ← hright]
      rfl
    obtain ⟨τ, hagree, hvars⟩ := hissued.exists_assignment σ (s ++ u) hlength
    rw [List.map_append] at hvars
    obtain ⟨rfl, rfl⟩ := List.append_inj hvars (by simp [hleft, ha.length_eq hs])
    have hvalue : τ last = τ first := by simpa using hmatch
    refine ⟨τ, fun x _ => hagree x, by simp, hs, ?_, by simp⟩
    rwa [List.map_cons, hvalue]
  · rintro ⟨τ, -, rfl, hs, hu, -⟩
    exact ⟨_, hs, _, hu, by simp, by simp, by simp⟩

theorem represents_emitApply (h : emitApply a b names = .ok (em, later)) :
    em.result.predicate.Represents M σ (A.apply B) := by
  obtain ⟨result, vars, hissued, hstart, hvars, hcolumns, hparams, rfl⟩ := emitApply_ok h
  have hle : b.arity ≤ a.arity := by simpa using hstart.length_le
  have hsecond : (vars.take b.arity).length = b.arity := by
    rw [List.length_take, hvars]
    omega
  refine represents_atoms hcovers hissued hmodel ha hb hka hkb
    (hparams ▸ subset_mergeParams_left ..) (hparams ▸ subset_mergeParams_right ..) (by simp) ?_
    fun t => ?_
  · rw [List.length_drop, hvars]
    simp [Predicate.arity, hcolumns]
  rw [Rows.mem_apply]
  constructor
  · rintro ⟨s, hs, u, hu, hsu, rfl⟩
    have htake : s.take b.arity = u := by
      rw [← hb.length_eq hu]
      exact (List.prefix_iff_eq_take.mp hsu).symm
    obtain ⟨τ, hagree, rfl⟩ := hissued.exists_assignment σ _ (hvars.trans (ha.length_eq hs).symm)
    refine ⟨τ, fun x _ => hagree x, ?_, hs, ?_, by simp⟩
    · rw [List.map_drop, hb.length_eq hu]
    · rwa [List.map_take, htake]
  · rintro ⟨τ, -, rfl, hs, hu, -⟩
    refine ⟨_, hs, _, hu, ?_, ?_⟩
    · rw [List.map_take]
      exact List.take_prefix _ _
    · rw [List.length_map, hsecond, List.map_drop]

theorem represents_emitDomainRestrict (h : emitDomainRestrict a b names = .ok (em, later)) :
    em.result.predicate.Represents M σ (A.domainRestrict B) := by
  obtain ⟨result, vars, hissued, -, hvars, hcolumns, hparams, rfl⟩ := emitDomainRestrict_ok h
  refine represents_atoms hcovers hissued hmodel hb ha hkb hka
    (hparams ▸ subset_mergeParams_right ..) (hparams ▸ subset_mergeParams_left ..) (by simp) ?_
    fun t => ?_
  · rw [hvars]
    simp [Predicate.arity, hcolumns]
  simp only [Rows.domainRestrict, Finset.mem_filter]
  constructor
  · rintro ⟨ht, s, hs, hst⟩
    have htake : t.take a.arity = s := by
      rw [← ha.length_eq hs]
      exact (List.prefix_iff_eq_take.mp hst).symm
    obtain ⟨τ, hagree, rfl⟩ := hissued.exists_assignment σ _ (hvars.trans (hb.length_eq ht).symm)
    refine ⟨τ, fun x _ => hagree x, rfl, ht, ?_, by simp⟩
    rwa [List.map_take, htake]
  · rintro ⟨τ, -, rfl, ht, hs, -⟩
    refine ⟨ht, _, hs, ?_⟩
    rw [List.map_take]
    exact List.take_prefix _ _

theorem represents_emitRangeRestrict (h : emitRangeRestrict a b names = .ok (em, later)) :
    em.result.predicate.Represents M σ (A.rangeRestrict B) := by
  obtain ⟨result, vars, hissued, -, hvars, hcolumns, hparams, rfl⟩ := emitRangeRestrict_ok h
  refine represents_atoms hcovers hissued hmodel ha hb hka hkb
    (hparams ▸ subset_mergeParams_left ..) (hparams ▸ subset_mergeParams_right ..) (by simp) ?_
    fun t => ?_
  · rw [hvars]
    simp [Predicate.arity, hcolumns]
  simp only [Rows.rangeRestrict, Finset.mem_filter]
  constructor
  · rintro ⟨ht, s, hs, hst⟩
    have hdrop : t.drop (a.arity - b.arity) = s := by
      rw [← ha.length_eq ht, ← hb.length_eq hs]
      exact (List.suffix_iff_eq_drop.mp hst).symm
    obtain ⟨τ, hagree, rfl⟩ := hissued.exists_assignment σ _ (hvars.trans (ha.length_eq ht).symm)
    refine ⟨τ, fun x _ => hagree x, rfl, ht, ?_, by simp⟩
    rwa [List.map_drop, hdrop]
  · rintro ⟨τ, -, rfl, ht, hs, -⟩
    refine ⟨ht, _, hs, ?_⟩
    rw [List.map_drop]
    exact List.drop_suffix _ _

/-! ## Comparisons and arithmetic -/

theorem represents_emitComparison {comparison : Comparison}
    (h : emitComparison comparison a b names = .ok (em, later)) :
    em.result.predicate.Represents M σ (A.compare B comparison) := by
  obtain ⟨result, lhs, rhs, type, hissued, -, -, -, hcolumns, hparams, rfl⟩ :=
    emitComparison_ok h
  rw [Predicate.atom_nil] at hmodel
  change result.Represents M σ (A.compare B comparison)
  refine represents_atoms hcovers hissued hmodel ha hb hka hkb
    (hparams ▸ subset_mergeParams_left ..) (hparams ▸ subset_mergeParams_right ..)
    (by simp [Literal.relation?]) (by simp [Predicate.arity, hcolumns]) fun t => ?_
  rw [Rows.mem_compare]
  constructor
  · rintro ⟨rfl, x, y, hx, hy, hholds⟩
    obtain ⟨τ, hagree, hvars⟩ := hissued.exists_assignment σ [x, y] rfl
    obtain ⟨rfl, rfl⟩ : τ lhs = x ∧ τ rhs = y := by simpa using hvars
    exact ⟨τ, fun x _ => hagree x, rfl, hx, hy, by simpa using hholds⟩
  · rintro ⟨τ, -, rfl, hx, hy, hholds⟩
    exact ⟨rfl, _, _, hx, hy, by simpa using hholds⟩

theorem represents_emitArithmetic {operation : Arithmetic}
    (h : emitArithmetic operation a b names = .ok (em, later)) :
    em.result.predicate.Represents M σ (A.arith B ops operation) := by
  obtain ⟨result, lhs, rhs, value, hissued, -, -, hcolumns, hparams, rfl⟩ :=
    emitArithmetic_ok h
  refine represents_atoms hcovers hissued hmodel ha hb hka hkb
    (hparams ▸ subset_mergeParams_left ..) (hparams ▸ subset_mergeParams_right ..)
    (by simp [Literal.relation?, Literal.assign]) (by simp [Predicate.arity, hcolumns])
    fun t => ?_
  have hassign : ∀ τ : Assignment, (Literal.assign value (.binary (arithOp operation)
      (.term (.var lhs)) (.term (.var rhs)))).Holds ops M τ ↔
        ops.eval (arithOp operation) (τ lhs) (τ rhs) = some (τ value) := by
    intro τ
    simp [Datalog.ScalarExpr.eval, Term.eval]
  rw [Rows.mem_arith]
  constructor
  · rintro ⟨x, y, v, hx, hy, heval, rfl⟩
    obtain ⟨τ, hagree, hvars⟩ := hissued.exists_assignment σ [x, y, v] rfl
    obtain ⟨rfl, rfl, rfl⟩ : τ lhs = x ∧ τ rhs = y ∧ τ value = v := by simpa using hvars
    refine ⟨τ, fun x _ => hagree x, rfl, hx, hy, ?_⟩
    rw [List.forall_mem_singleton, hassign]
    exact heval
  · rintro ⟨τ, -, rfl, hx, hy, hholds⟩
    rw [List.forall_mem_singleton, hassign] at hholds
    exact ⟨_, _, _, hx, hy, hholds, rfl⟩

/-! ## Set operations -/

theorem represents_emitSetOperation (hscope : scope.WellScoped) (hwithin : scope.Within known)
    (hcoherent : Coherent M σ scope env) {operation : SetOp}
    (h : emitSetOperation operation a b scope names = .ok (em, later)) :
    em.result.predicate.Represents M σ ((BinaryOp.set operation).denote ops A B) := by
  obtain ⟨result, vars, rules, hissued, htypes, hvars, hcolumns, hparams, rfl, hrules⟩ :=
    emitSetOperation_ok h
  have hpa : a.params ⊆ result.params := hparams ▸ subset_mergeParams_left ..
  have hpb : b.params ⊆ result.params := hparams ▸ subset_mergeParams_right ..
  have hlength : vars.length = result.arity := by
    rw [hvars, Predicate.arity, Predicate.arity, hcolumns]
  have hvars' : vars.length = b.arity := by
    rw [hvars, ← Predicate.length_types, htypes, Predicate.length_types]
  change result.Represents M σ _
  cases operation with
  | union =>
      obtain ⟨forLeft, forRight, hleft, hright, rfl⟩ := hrules
      refine represents_single hcovers hissued hmodel (by simp) ?_ hlength fun t => ?_
      · have hreads := relation_of_mem_ground hwithin hleft
        have hreads' := relation_of_mem_ground hwithin hright
        simpa [Literal.relation?, hka, hkb] using ⟨hreads, hreads'⟩
      have hpair : ∀ (P : Rule → Prop) (first second : Rule),
          (∃ rule ∈ [first, second], P rule) ↔ P first ∨ P second := by simp
      rw [hpair, BinaryOp.denote, Finset.mem_union]
      exact or_congr (mem_iff_grounded hscope hcoherent hissued ha hpa hvars hleft)
        (mem_iff_grounded hscope hcoherent hissued hb hpb hvars' hright)
  | intersection =>
      rw [hrules] at hmodel
      refine represents_atoms hcovers hissued hmodel ha hb hka hkb hpa hpb (by simp) hlength
        fun t => ?_
      simp only [BinaryOp.denote, Finset.mem_inter]
      constructor
      · rintro ⟨hs, hu⟩
        obtain ⟨τ, hagree, rfl⟩ :=
          hissued.exists_assignment σ t (hvars.trans (ha.length_eq hs).symm)
        exact ⟨τ, fun x _ => hagree x, rfl, hs, hu, by simp⟩
      · rintro ⟨τ, -, rfl, hs, hu, -⟩
        exact ⟨hs, hu⟩
  | difference =>
      obtain ⟨grounding, hground, rfl⟩ := hrules
      refine represents_rule hcovers hissued hmodel ?_ hlength fun t => ?_
      · have hreads := relation_of_mem_ground hwithin hground
        simpa [Literal.relation?, hka, hkb] using hreads
      simp only [BinaryOp.denote, Finset.mem_sdiff]
      have hbody : ∀ τ, Agree result.params σ τ →
          ((Literal.positive (a.atomOf vars)).Holds ops M τ ↔ vars.map τ ∈ A) ∧
            ((Literal.negated (b.atomOf vars)).Holds ops M τ ↔ vars.map τ ∉ B) := by
        intro τ hagree
        exact ⟨(ha.congr hagree hpa).holds_atomOf,
          not_congr (hb.congr hagree hpb).holds_atomOf⟩
      constructor
      · rintro ⟨hs, hu⟩
        obtain ⟨τ, hagree, rfl⟩ :=
          hissued.exists_assignment σ t (hvars.trans (ha.length_eq hs).symm)
        obtain ⟨hleft, hright⟩ := hbody τ fun x _ => hagree x
        refine ⟨τ, fun x _ => hagree x, rfl, ?_⟩
        rw [List.forall_mem_cons, List.forall_mem_cons]
        exact ⟨hleft.mpr hs, hright.mpr hu, hcoherent.holds_ground hscope hground hagree⟩
      · rintro ⟨τ, hagree, rfl, hholds⟩
        obtain ⟨hleft, hright⟩ := hbody τ hagree
        rw [List.forall_mem_cons, List.forall_mem_cons] at hholds
        exact ⟨hleft.mp hholds.1, hright.mp hholds.2.1⟩

/-- Operators on two relations preserve meaning. -/
theorem represents_emitBinary (hscope : scope.WellScoped) (hwithin : scope.Within known)
    (hcoherent : Coherent M σ scope env) {op : BinaryOp}
    (h : emitBinary op a b scope names = .ok (em, later)) :
    em.result.predicate.Represents M σ (op.denote ops A B) := by
  cases op with
  | join => exact represents_emitJoin hcovers ha hb hka hkb hmodel h
  | compare comparison => exact represents_emitComparison hcovers ha hb hka hkb hmodel h
  | set operation =>
      exact represents_emitSetOperation hcovers ha hb hka hkb hmodel hscope hwithin hcoherent h
  | product => exact represents_emitProduct hcovers ha hb hka hkb hmodel h
  | apply => exact represents_emitApply hcovers ha hb hka hkb hmodel h
  | domainRestrict => exact represents_emitDomainRestrict hcovers ha hb hka hkb hmodel h
  | rangeRestrict => exact represents_emitRangeRestrict hcovers ha hb hka hkb hmodel h
  | arith operation => exact represents_emitArithmetic hcovers ha hb hka hkb hmodel h

end Binary

/-! ## Operators on one relation -/

section Unary

variable (ha : a.Represents M σ A) (hka : a.name ∈ known)
variable (hmodel : ∀ d ∈ em.definitions, d.Modelled ops M)

include ha hka hmodel

theorem represents_emitDropLast (h : emitDropLast a names = .ok (em, later)) :
    em.result.predicate.Represents M σ A.dropLast := by
  obtain ⟨result, vars, hissued, hcolumn, hvars, hcolumns, hparams, rfl⟩ := emitDropLast_ok h
  have hpa : a.params ⊆ result.params := hparams ▸ List.Subset.refl _
  refine represents_rule hcovers hissued hmodel (by simp [Literal.relation?, hka]) ?_ fun t => ?_
  · rw [hvars]
    simp [Predicate.arity, hcolumns]
  have hbody : ∀ τ, Agree result.params σ τ →
      ((∀ l ∈ [Literal.positive (a.atom (vars.map .var ++ [.wildcard]))], l.Holds ops M τ) ↔
        ∃ last, vars.map τ ++ [last] ∈ A) := by
    intro τ hagree
    rw [List.forall_mem_singleton, Literal.holds_positive,
      (ha.congr hagree hpa).holds_atom]
    simp only [Datalog.forall₂_matches_append, Datalog.forall₂_matches_vars,
      List.forall₂_cons_left_iff, List.forall₂_nil_left_iff, Term.matches_wildcard]
    constructor
    · rintro ⟨s, hs, _, _, rfl, ⟨last, _, -, rfl, rfl⟩, rfl⟩
      exact ⟨last, hs⟩
    · rintro ⟨last, hs⟩
      exact ⟨_, hs, _, _, rfl, ⟨last, _, trivial, rfl, rfl⟩, rfl⟩
  rw [Rows.dropLast, Finset.mem_image]
  constructor
  · rintro ⟨s, hs, rfl⟩
    have hne : s ≠ [] := by
      rintro rfl
      exact hcolumn (ha.length_eq hs).symm
    obtain ⟨τ, hagree, hmap⟩ := hissued.exists_assignment σ s.dropLast (by
      rw [hvars, List.length_dropLast, ha.length_eq hs])
    refine ⟨τ, fun x _ => hagree x, hmap, (hbody τ fun x _ => hagree x).mpr ⟨s.getLast hne, ?_⟩⟩
    rwa [hmap, List.dropLast_append_getLast]
  · rintro ⟨τ, hagree, rfl, hholds⟩
    obtain ⟨last, hs⟩ := (hbody τ hagree).mp hholds
    exact ⟨_, hs, List.dropLast_concat⟩

theorem represents_emitDropFirst (h : emitDropFirst a names = .ok (em, later)) :
    em.result.predicate.Represents M σ A.dropFirst := by
  obtain ⟨result, vars, hissued, hcolumn, hvars, hcolumns, hparams, rfl⟩ := emitDropFirst_ok h
  have hpa : a.params ⊆ result.params := hparams ▸ List.Subset.refl _
  refine represents_rule hcovers hissued hmodel (by simp [Literal.relation?, hka]) ?_ fun t => ?_
  · rw [hvars]
    simp [Predicate.arity, hcolumns]
  have hbody : ∀ τ, Agree result.params σ τ →
      ((∀ l ∈ [Literal.positive (a.atom (.wildcard :: vars.map .var))], l.Holds ops M τ) ↔
        ∃ first, first :: vars.map τ ∈ A) := by
    intro τ hagree
    rw [List.forall_mem_singleton, Literal.holds_positive,
      (ha.congr hagree hpa).holds_atom]
    simp only [List.forall₂_cons_left_iff, Datalog.forall₂_matches_vars, Term.matches_wildcard]
    constructor
    · rintro ⟨s, hs, first, _, -, rfl, rfl⟩
      exact ⟨first, hs⟩
    · rintro ⟨first, hs⟩
      exact ⟨_, hs, first, _, trivial, rfl, rfl⟩
  rw [Rows.dropFirst, Finset.mem_image]
  constructor
  · rintro ⟨s, hs, rfl⟩
    obtain ⟨first, rest, rfl⟩ : ∃ first rest, s = first :: rest := by
      cases s with
      | nil => exact (hcolumn (ha.length_eq hs).symm).elim
      | cons first rest => exact ⟨first, rest, rfl⟩
    have hrest : vars.length = rest.length := by
      rw [hvars, ← ha.length_eq hs, List.length_cons, Nat.add_sub_cancel]
    obtain ⟨τ, hagree, rfl⟩ := hissued.exists_assignment σ rest hrest
    exact ⟨τ, fun x _ => hagree x, rfl, (hbody τ fun x _ => hagree x).mpr ⟨first, hs⟩⟩
  · rintro ⟨τ, hagree, rfl, hholds⟩
    obtain ⟨first, hs⟩ := (hbody τ hagree).mp hholds
    exact ⟨_, hs, rfl⟩

theorem represents_emitTranspose (h : emitTranspose a names = .ok (em, later)) :
    em.result.predicate.Represents M σ (A.image List.reverse) := by
  obtain ⟨result, source, target, hissued, harity, hcolumns, hparams, rfl⟩ := emitTranspose_ok h
  have hpa : a.params ⊆ result.params := hparams ▸ List.Subset.refl _
  refine represents_rule hcovers hissued hmodel (by simp [Literal.relation?, hka]) ?_ fun t => ?_
  · rw [Predicate.arity] at harity
    simp [Predicate.arity, hcolumns, harity]
  have hbody : ∀ τ, Agree result.params σ τ →
      ((∀ l ∈ [Literal.positive (a.atomOf [source, target])], l.Holds ops M τ) ↔
        [τ source, τ target] ∈ A) := by
    intro τ hagree
    rw [List.forall_mem_singleton, Literal.holds_positive]
    exact (ha.congr hagree hpa).holds_atomOf
  rw [Finset.mem_image]
  constructor
  · rintro ⟨s, hs, rfl⟩
    obtain ⟨x, y, rfl⟩ := List.length_eq_two.mp ((ha.length_eq hs).trans harity)
    obtain ⟨τ, hagree, hmap⟩ := hissued.exists_assignment σ [x, y] rfl
    obtain ⟨rfl, rfl⟩ : τ source = x ∧ τ target = y := by simpa using hmap
    exact ⟨τ, fun x _ => hagree x, rfl, (hbody τ fun x _ => hagree x).mpr hs⟩
  · rintro ⟨τ, hagree, rfl, hholds⟩
    exact ⟨_, (hbody τ hagree).mp hholds, rfl⟩

/-! ## Closure -/

omit hcovers hka hmodel in
theorem derives_closure_base {relations : List String} {source target middle : String}
    (hissued : Issued names relations [source, target, middle] later)
    (hparams : result.params = a.params) {x z : Value} :
    Rule.Derives ops M ⟨result.atomOf [source, target], [.positive (a.atomOf [source, target])]⟩
      (result.row σ [x, z]) ↔ [x, z] ∈ A := by
  have hpa : a.params ⊆ result.params := hparams ▸ List.Subset.refl _
  rw [Predicate.derives_row_iff (by rfl)]
  constructor
  · rintro ⟨τ, hagree, hmap, hbody⟩
    have hstep := hbody _ List.mem_cons_self
    rwa [Literal.holds_positive, (ha.congr hagree hpa).holds_atomOf, hmap] at hstep
  · intro hstep
    obtain ⟨τ, hagree, hmap⟩ := hissued.exists_assignment σ [x, z, z] rfl
    obtain ⟨rfl, rfl, -⟩ : τ source = x ∧ τ target = z ∧ τ middle = z := by simpa using hmap
    refine ⟨τ, fun x _ => hagree x, rfl, ?_⟩
    rw [List.forall_mem_singleton, Literal.holds_positive,
      (ha.congr (fun x _ => hagree x) hpa).holds_atomOf]
    exact hstep

omit hcovers hka hmodel in
theorem derives_closure_step {relations : List String} {source target middle : String}
    (hissued : Issued names relations [source, target, middle] later)
    (hparams : result.params = a.params) {x z : Value} :
    Rule.Derives ops M ⟨result.atomOf [source, target],
      [.positive (result.atomOf [source, middle]), .positive (a.atomOf [middle, target])]⟩
      (result.row σ [x, z]) ↔ ∃ y, result.row σ [x, y] ∈ M result.name ∧ [y, z] ∈ A := by
  have hpa : a.params ⊆ result.params := hparams ▸ List.Subset.refl _
  have hbody : ∀ τ, Agree result.params σ τ →
      ((∀ l ∈ [Literal.positive (result.atomOf [source, middle]),
        .positive (a.atomOf [middle, target])], l.Holds ops M τ) ↔
        result.row σ [τ source, τ middle] ∈ M result.name ∧ [τ middle, τ target] ∈ A) := by
    intro τ hagree
    simp only [List.forall_mem_cons, List.not_mem_nil, false_implies, implies_true, and_true,
      Literal.holds_positive, (ha.congr hagree hpa).holds_atomOf]
    refine and_congr ?_ Iff.rfl
    rw [Predicate.row_congr hagree]
    simp only [Atom.Holds, Predicate.atomOf, Predicate.matches_atom,
      Datalog.forall₂_matches_vars, Predicate.relation_atom]
    constructor
    · rintro ⟨_, hmem, _, rfl, rfl⟩
      exact hmem
    · intro hmem
      exact ⟨_, hmem, _, rfl, rfl⟩
  rw [Predicate.derives_row_iff (by rfl)]
  constructor
  · rintro ⟨τ, hagree, hmap, hholds⟩
    obtain ⟨rfl, rfl⟩ : τ source = x ∧ τ target = z := by simpa using hmap
    exact ⟨τ middle, (hbody τ hagree).mp hholds⟩
  · rintro ⟨y, hholds⟩
    obtain ⟨τ, hagree, hmap⟩ := hissued.exists_assignment σ [x, z, y] rfl
    obtain ⟨rfl, rfl, rfl⟩ : τ source = x ∧ τ target = z ∧ τ middle = y := by simpa using hmap
    exact ⟨τ, fun x _ => hagree x, rfl, (hbody τ fun x _ => hagree x).mpr hholds⟩

theorem represents_emitClosure (h : emitClosure a names = .ok (em, later)) :
    em.result.predicate.Represents M σ A.closure := by
  obtain ⟨result, source, target, middle, type, hissued, htypes, hcolumns, hparams, rfl⟩ :=
    emitClosure_ok h
  have harity : result.arity = 2 := by
    rw [Predicate.arity, hcolumns, ← Predicate.arity, ← Predicate.length_types, htypes]
    rfl
  have hne : a.name ≠ result.name := by
    intro heq
    exact hissued.not_covers List.mem_cons_self (heq ▸ hcovers _ hka)
  have hown : M result.name = Datalog.least ops _ ∅ M result.name := hmodel _ List.mem_cons_self
  have hlength : [source, target].length = result.arity := harity.symm
  have hsized := Predicate.sized_of_rules hown (by simp) hlength
  refine ⟨hsized, fun t => ?_⟩
  change t ∈ A.closure ↔ result.row σ t ∈ M result.name
  rw [Rows.mem_closure]
  constructor
  · -- Along a path, every set closed under both rules has the pairs from its start.
    rintro ⟨x, y, rfl, hpath⟩
    rw [hown]
    intro tuples hclosed
    have ha' := ha.update hne tuples
    induction hpath with
    | single hstep =>
        exact hclosed.rules _ List.mem_cons_self rfl _
          ((derives_closure_base ha' hissued hparams).mpr hstep)
    | tail _ hstep ih =>
        refine hclosed.rules _ (List.mem_cons_of_mem _ List.mem_cons_self) rfl _
          ((derives_closure_step ha' hissued hparams).mpr ⟨_, ?_, hstep⟩)
        rw [Function.update_self]
        exact ih
  · -- The rows whose pair is joined by a path are closed under both rules; rows for other values
    -- of the parameters are left unconstrained.
    intro hrow
    have ht := hsized _ hrow
    rw [Predicate.length_row, Nat.add_right_cancel_iff, harity] at ht
    obtain ⟨x, y, rfl⟩ := List.length_eq_two.mp ht
    rw [hown] at hrow
    refine ⟨x, y, rfl, hrow {tuple | ∀ u v, tuple = result.row σ [u, v] →
      Relation.TransGen A.Step u v} ⟨Set.empty_subset _, ?_⟩ x y rfl⟩
    rintro rule hrule - tuple hderives u v rfl
    have ha' := ha.update hne {tuple | ∀ u v, tuple = result.row σ [u, v] →
      Relation.TransGen A.Step u v}
    rcases List.mem_pair.mp hrule with rfl | rfl
    · exact .single ((derives_closure_base ha' hissued hparams).mp hderives)
    · obtain ⟨w, hpath, hstep⟩ := (derives_closure_step ha' hissued hparams).mp hderives
      rw [Function.update_self] at hpath
      exact .tail (hpath u w rfl) hstep

/-! ## Quantifiers, counts and aggregates -/

section Grounded

variable (hscope : scope.WellScoped) (hwithin : scope.Within known)
variable (hcoherent : Coherent M σ scope env)

include hscope hwithin hcoherent

theorem represents_emitQuantifier {quantifier : Quantifier}
    (h : emitQuantifier quantifier a scope names = .ok (em, later)) :
    em.result.predicate.Represents M σ ((UnaryOp.quantify quantifier).denote A) := by
  obtain ⟨result, rules, hissued, hcolumns, hparams, rfl, hrules⟩ := emitQuantifier_ok h
  have hpa : a.params ⊆ result.params := hparams ▸ List.Subset.refl _
  have hlength : ([] : List String).length = result.arity := by simp [Predicate.arity, hcolumns]
  have hnonempty : ∀ τ, Agree result.params σ τ → (a.wildcardAtom.Holds M τ ↔ A.Nonempty) :=
    fun τ hagree => (ha.congr hagree hpa).holds_wildcardAtom
  change result.Represents M σ _
  cases quantifier with
  | some =>
      rw [hrules, Predicate.atom_nil] at hmodel
      refine represents_rule hcovers hissued hmodel (by simp [Literal.relation?, hka]) hlength
        fun t => ?_
      simp only [UnaryOp.denote, Rows.mem_truth, List.forall_mem_singleton,
        Literal.holds_positive]
      constructor
      · rintro ⟨hsome, rfl⟩
        exact ⟨σ, fun _ _ => rfl, rfl, (hnonempty σ fun _ _ => rfl).mpr hsome⟩
      · rintro ⟨τ, hagree, rfl, hholds⟩
        exact ⟨(hnonempty τ hagree).mp hholds, rfl⟩
  | no =>
      obtain ⟨grounding, hground, rfl⟩ := hrules
      rw [Predicate.atom_nil] at hmodel
      have hreads := relation_of_mem_ground hwithin hground
      refine represents_rule hcovers hissued hmodel (by simpa [Literal.relation?, hka] using hreads)
        hlength fun t => ?_
      simp only [UnaryOp.denote, Rows.mem_truth, List.forall_mem_cons, Literal.holds_negated]
      constructor
      · rintro ⟨hnone, rfl⟩
        refine ⟨σ, fun _ _ => rfl, rfl, ?_, hcoherent.holds_ground hscope hground fun _ => rfl⟩
        exact fun hholds => hnone ((hnonempty σ fun _ _ => rfl).mp hholds)
      · rintro ⟨τ, hagree, rfl, hholds, -⟩
        exact ⟨fun hsome => hholds ((hnonempty τ hagree).mpr hsome), rfl⟩

theorem represents_emitCount (h : emitCount a scope names = .ok (em, later)) :
    em.result.predicate.Represents M σ {[.number A.card]} := by
  obtain ⟨result, count, grounding, hissued, hground, hcolumns, hparams, rfl⟩ := emitCount_ok h
  have hpa : a.params ⊆ result.params := hparams ▸ List.Subset.refl _
  have hreads := relation_of_mem_ground hwithin hground
  refine represents_rule hcovers hissued hmodel (by simpa [Literal.relation?, hka] using hreads)
    (by simp [Predicate.arity, hcolumns]) fun t => ?_
  rw [Finset.mem_singleton]
  constructor
  · rintro rfl
    obtain ⟨τ, hagree, hmap⟩ := hissued.exists_assignment σ [.number A.card] rfl
    refine ⟨τ, fun x _ => hagree x, hmap, List.forall_mem_cons.mpr ⟨?_, ?_⟩⟩
    · exact (ha.congr (fun x _ => hagree x) hpa).holds_count.mpr (List.cons.inj hmap).1
    · exact hcoherent.holds_ground hscope hground hagree
  · rintro ⟨τ, hagree, rfl, hholds⟩
    have hcount := hholds _ List.mem_cons_self
    rw [Literal.holds_aggregate, (ha.congr hagree hpa).holds_count] at hcount
    rw [List.map_singleton, hcount]

theorem represents_emitAggregate {function : NumericAggregate}
    (h : emitAggregate function a scope names = .ok (em, later)) :
    em.result.predicate.Represents M σ (A.aggregate function) := by
  obtain ⟨result, value, each, grounding, hissued, hlast, hground, hcolumns, hparams, rfl⟩ :=
    emitAggregate_ok h
  have hpa : a.params ⊆ result.params := hparams ▸ List.Subset.refl _
  have hcolumn : a.arity ≠ 0 := Predicate.arity_ne_zero_of_lastType hlast
  have heach : ∀ x, each ≠ paramVar x := hissued.not_param (by simp)
  have hreads := relation_of_mem_ground hwithin hground
  refine represents_rule hcovers hissued hmodel (by simpa [Literal.relation?, hka] using hreads)
    (by simp [Predicate.arity, hcolumns]) fun t => ?_
  constructor
  · intro ht
    obtain ⟨n, rfl⟩ := Rows.exists_number_of_mem_aggregate ht
    obtain ⟨τ, hagree, hmap⟩ := hissued.exists_assignment σ [.number n, .number n] rfl
    have hvalue : τ value = .number n := (List.cons.inj hmap).1
    refine ⟨τ, fun x _ => hagree x, by rw [List.map_singleton, hvalue],
      List.forall_mem_cons.mpr ⟨?_, ?_⟩⟩
    · rw [Literal.holds_aggregate,
        (ha.congr (fun x _ => hagree x) hpa).holds_aggregate hcolumn heach, hvalue]
      exact ht
    · exact hcoherent.holds_ground hscope hground hagree
  · rintro ⟨τ, hagree, rfl, hholds⟩
    exact ((ha.congr hagree hpa).holds_aggregate hcolumn heach).mp (hholds _ List.mem_cons_self)

/-- Operators on one relation preserve meaning. -/
theorem represents_emitUnary {op : UnaryOp} (hindex : op ≠ .index) (hconcat : op ≠ .concat)
    (h : emitUnary op a scope names = .ok (em, later)) :
    em.result.predicate.Represents M σ (op.denote A) := by
  cases op with
  | quantify quantifier =>
      exact represents_emitQuantifier hcovers ha hka hmodel hscope hwithin hcoherent h
  | count => exact represents_emitCount hcovers ha hka hmodel hscope hwithin hcoherent h
  | closure => exact represents_emitClosure hcovers ha hka hmodel h
  | reflexiveClosure => simp [emitUnary, throw_eq_ok] at h
  | transpose => exact represents_emitTranspose hcovers ha hka hmodel h
  | aggregate function =>
      exact represents_emitAggregate hcovers ha hka hmodel hscope hwithin hcoherent h
  | wildcardApply => exact represents_emitDropFirst hcovers ha hka hmodel h
  | index => exact (hindex rfl).elim
  | concat => exact (hconcat rfl).elim

end Grounded

end Unary

/-! ## Constants and names -/

theorem represents_emitConstant {constant : Constant}
    (hmodel : ∀ d ∈ em.definitions, d.Modelled ops M)
    (h : emitConstant constant names = .ok (em, later)) :
    em.result.predicate.Represents M σ {[constant.toValue]} := by
  obtain ⟨result, value, hissued, hcolumns, -, rfl⟩ := emitConstant_ok h
  have hassign : ∀ τ : Assignment,
      (Literal.assign value (.term (constantTerm constant).2)).Holds ops M τ ↔
        constant.toValue = τ value := by
    intro τ
    cases constant <;> simp [Datalog.ScalarExpr.eval, constantTerm, Term.eval, Constant.toValue]
  refine represents_rule hcovers hissued hmodel (by simp [Literal.relation?, Literal.assign])
    (by simp [Predicate.arity, hcolumns]) fun t => ?_
  simp only [Finset.mem_singleton, List.forall_mem_singleton, hassign]
  constructor
  · rintro rfl
    obtain ⟨τ, hagree, hmap⟩ := hissued.exists_assignment σ [constant.toValue] rfl
    exact ⟨τ, fun x _ => hagree x, hmap, (List.cons.inj hmap).1.symm⟩
  · rintro ⟨τ, -, rfl, hvalue⟩
    rw [List.map_singleton, hvalue]

theorem represents_emitScalar (hwithin : scope.Within known)
    (hcoherent : Coherent M σ scope env) {scalar : String} {binding : ScalarBinding}
    (hmodel : ∀ d ∈ em.definitions, d.Modelled ops M)
    (hlookup : scope.lookup scalar = some (.scalar binding))
    (h : emitScalar scalar binding names = .ok (em, later)) :
    em.result.predicate.Represents M σ (env scalar) := by
  obtain ⟨result, hissued, hcolumns, hparams, rfl⟩ := emitScalar_ok h
  have hconstraint := hwithin.scalar hlookup
  have hmem : scalar ∈ result.params := by
    rw [hparams]
    simp
  refine represents_rule hcovers hissued hmodel (by simp [Literal.relation?, hconstraint])
    (by simp [Predicate.arity, hcolumns]) fun t => ?_
  rw [hcoherent.scalar hlookup]
  simp only [Finset.mem_singleton, List.forall_mem_singleton, Literal.holds_positive,
    List.map_singleton]
  constructor
  · rintro rfl
    exact ⟨σ, fun _ _ => rfl, rfl, hcoherent.constraint hlookup⟩
  · rintro ⟨τ, hagree, rfl, -⟩
    have hown : σ (paramVar scalar) = τ (paramVar scalar) := hagree scalar hmem
    rw [hown]

/-! ## Comprehensions -/

omit hcovers in
theorem map_keptVars_append {style : Style} {scalars vars : List String} (τ : Assignment) :
    (keptVars style scalars ++ vars).map τ =
      style.tuple ((scalars.map paramVar).map τ) (vars.map τ) := by
  cases style <;> simp [keptVars, Style.tuple]

omit hcovers in
theorem length_keptVars {style : Style} {scalars : List String} {c : Predicate}
    (harity : c.arity = scalars.length) :
    (keptVars style scalars).length = (variableColumns style scalars c).length := by
  rw [Predicate.arity] at harity
  cases style <;> simp [keptVars, variableColumns, harity]

/-- The body of a comprehension represents a set for every tuple of the constraint, with the
variables of the comprehension as the values of that tuple. -/
theorem represents_emitComprehension {style : Style} {scalars : List String} {c : Predicate}
    {body : Tuple → Rows} (hc : c.Represents M σ C)
    (hb : ∀ t ∈ C, b.Represents M (σ.assign (scalars.map paramVar) t) (body t))
    (hkc : c.name ∈ known) (hkb : b.name ∈ known) (hnodup : scalars.Nodup)
    (harity : c.arity = scalars.length) (hfree : ∀ x ∈ c.params, x ∉ scalars)
    (hmodel : ∀ d ∈ em.definitions, d.Modelled ops M)
    (h : emitComprehension style scalars c b names = .ok (em, later)) :
    em.result.predicate.Represents M σ
      (C.biUnion fun t => (body t).image (style.tuple t)) := by
  obtain ⟨result, vars, hissued, hvars, hcolumns, hparams, rfl⟩ := emitComprehension_ok h
  have hpc : c.params ⊆ result.params := hparams ▸ subset_mergeParams_right ..
  have hpb : ∀ x ∈ b.params, x ∉ scalars → x ∈ result.params := by
    intro x hx hnot
    rw [hparams, mem_mergeParams, List.mem_filter]
    exact .inl ⟨hx, by simpa using hnot⟩
  have houter : ∀ x ∈ result.params, x ∉ scalars := by
    intro x hx
    rw [hparams, mem_mergeParams, List.mem_filter] at hx
    rcases hx with ⟨-, hnot⟩ | hx
    · simpa using hnot
    · exact hfree x hx
  have htake : ∀ t ∈ C, (scalars.map paramVar).map (σ.assign (scalars.map paramVar) t) = t := by
    intro t ht
    exact Assignment.map_assign_paramVar hnodup (harity.symm.trans (hc.length_eq ht).symm)
  refine represents_rule hcovers hissued hmodel (by simp [Literal.relation?, hkb, hkc]) ?_
    fun t => ?_
  · rw [List.length_append, length_keptVars harity, hvars]
    simp [Predicate.arity, hcolumns]
  simp only [Finset.mem_biUnion, Finset.mem_image, List.forall_mem_cons, List.not_mem_nil,
    false_implies, implies_true, and_true, Literal.holds_positive, map_keptVars_append]
  constructor
  · -- The variables of the comprehension are no parameters of the result, so they can take the
    -- values of a tuple of the constraint before the fresh variables take those of the body.
    rintro ⟨s, hs, u, hu, rfl⟩
    obtain ⟨τ, hagree, rfl⟩ := hissued.exists_assignment (σ.assign (scalars.map paramVar) s) u
      (hvars.trans ((hb s hs).length_eq hu).symm)
    have hbind : (scalars.map paramVar).map τ = s := by
      rw [← htake s hs, List.map_map, List.map_map]
      exact List.map_congr_left fun x _ => (hagree x).symm
    have hagree' : Agree result.params σ τ := by
      intro x hx
      rw [← hagree x, Assignment.assign_paramVar_of_notMem (houter x hx)]
    refine ⟨τ, hagree', by rw [hbind], ?_, ?_⟩
    · exact ((hb s hs).congr (fun x _ => hagree x) (List.Subset.refl _)).holds_atomOf.mpr hu
    · rw [(hc.congr hagree' hpc).holds_atomOf, hbind]
      exact hs
  · rintro ⟨τ, hagree, rfl, hbody, hconstraint⟩
    rw [(hc.congr hagree hpc).holds_atomOf] at hconstraint
    have hagree' : Agree b.params
        (σ.assign (scalars.map paramVar) ((scalars.map paramVar).map τ)) τ := by
      intro x hx
      by_cases hmem : x ∈ scalars
      · have hmap := htake _ hconstraint
        rw [List.map_inj_left] at hmap
        exact hmap _ (List.mem_map_of_mem hmem)
      · rw [Assignment.assign_paramVar_of_notMem hmem]
        exact hagree x (hpb x hx hmem)
    rw [((hb _ hconstraint).congr hagree' (List.Subset.refl _)).holds_atomOf] at hbody
    exact ⟨_, hconstraint, _, hbody, rfl⟩

end Operators

end RelQuery.Compile
