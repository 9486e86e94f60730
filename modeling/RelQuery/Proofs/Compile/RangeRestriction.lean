import RelQuery.Proofs.Compile.Assembly
import RelQuery.Proofs.Datalog.Safety

/-!
# Generated rules are range-restricted

The variables of a generated rule are fresh variables and variables of scalars.  A fresh variable
stands in a positive atom, is the result of an aggregate or is assigned from variables of positive
atoms.  A scalar of the head is a parameter of an operand that stands in a positive atom, or it is
grounded.  This is shown for each operator; a whole program consists of such rules.
-/

namespace RelQuery.Compile

open Datalog (Atom Literal Rule)

variable {scope : Scope} {names later : FreshNames} {a b : Predicate} {em : Emission}

def Emission.Safe (em : Emission) : Prop :=
  ∀ d ∈ em.definitions, ∀ rule ∈ d.rules, rule.unbound = []

theorem Emission.safe_single {p : Predicate} {label : String} {rules : List Rule}
    (h : ∀ rule ∈ rules, rule.unbound = []) : (Emission.single p label rules).Safe := by
  intro d hd
  rw [Emission.definitions_single, List.mem_singleton] at hd
  subst hd
  exact h

theorem Emission.safe_rule {p : Predicate} {label : String} {rule : Rule}
    (h : rule.unbound = []) : (Emission.single p label [rule]).Safe :=
  Emission.safe_single (List.forall_mem_singleton.mpr h)

/-- A rule without assignments is safe when its body binds all that the head and the body need. -/
theorem unbound_of_binds {rule : Rule}
    (hhead : ∀ v ∈ rule.head.vars, v ∈ rule.body.flatMap Literal.binds)
    (hbody : ∀ v ∈ rule.body.flatMap Literal.needs, v ∈ rule.body.flatMap Literal.binds) :
    rule.unbound = [] := by
  apply Rule.unbound_eq_nil
  intro v hv
  rcases List.mem_append.mp hv with hv | hv
  · exact .inl (hhead v hv)
  · exact .inl (hbody v hv)

theorem unbound_of_atom {head atom : Atom} (h : ∀ v ∈ head.vars, v ∈ atom.vars) :
    (⟨head, [.positive atom]⟩ : Rule).unbound = [] := by
  apply unbound_of_binds
  · intro v hv
    simpa [Literal.binds] using h v hv
  · simp [Literal.needs]

theorem unbound_of_atoms {head first second : Atom}
    (h : ∀ v ∈ head.vars, v ∈ first.vars ∨ v ∈ second.vars) :
    (⟨head, [.positive first, .positive second]⟩ : Rule).unbound = [] := by
  apply unbound_of_binds
  · intro v hv
    simpa [Literal.binds] using h v hv
  · simp [Literal.needs]

/-- Grounding needs nothing, since it consists of positive atoms. -/
theorem needs_ground {params bound : List String} {literals : List Literal}
    (h : scope.ground params bound = .ok literals) : literals.flatMap Literal.needs = [] := by
  rw [List.flatMap_eq_nil_iff]
  intro l hl
  obtain ⟨x, s, -, rfl⟩ := Scope.mem_ground h hl
  rfl

/-! ## Joins, products, applications and restrictions -/

theorem safe_emitJoin (h : emitJoin a b names = .ok (em, later)) : em.Safe := by
  obtain ⟨result, left, right, type, -, -, -, -, -, -, hparams, rfl⟩ := emitJoin_ok h
  apply Emission.safe_rule
  apply unbound_of_atoms
  simp only [Predicate.vars_atomOf, hparams, List.mem_append, List.mem_map, mem_mergeParams]
  rintro v ((hv | hv) | ⟨x, hx | hx, rfl⟩)
  · exact .inl (.inl (List.mem_of_mem_dropLast hv))
  · exact .inr (.inl (.inr hv))
  · exact .inl (.inr ⟨x, hx, rfl⟩)
  · exact .inr (.inr ⟨x, hx, rfl⟩)

theorem safe_emitDropLast (h : emitDropLast a names = .ok (em, later)) : em.Safe := by
  obtain ⟨result, vars, -, -, -, -, hparams, rfl⟩ := emitDropLast_ok h
  apply Emission.safe_rule
  apply unbound_of_atom
  simp [hparams]

theorem safe_emitDropFirst (h : emitDropFirst a names = .ok (em, later)) : em.Safe := by
  obtain ⟨result, vars, -, -, -, -, hparams, rfl⟩ := emitDropFirst_ok h
  apply Emission.safe_rule
  apply unbound_of_atom
  simp [hparams]

theorem safe_emitProduct (h : emitProduct a b names = .ok (em, later)) : em.Safe := by
  obtain ⟨result, left, right, -, -, -, -, hparams, rfl⟩ := emitProduct_ok h
  apply Emission.safe_rule
  apply unbound_of_atoms
  simp only [Predicate.vars_atomOf, hparams, List.mem_append, List.mem_map, mem_mergeParams]
  grind

theorem safe_emitApply (h : emitApply a b names = .ok (em, later)) : em.Safe := by
  obtain ⟨result, vars, -, -, -, -, hparams, rfl⟩ := emitApply_ok h
  apply Emission.safe_rule
  apply unbound_of_atoms
  simp only [Predicate.vars_atomOf, hparams, List.mem_append, List.mem_map, mem_mergeParams]
  grind [List.mem_of_mem_drop]

theorem safe_emitDomainRestrict (h : emitDomainRestrict a b names = .ok (em, later)) :
    em.Safe := by
  obtain ⟨result, vars, -, -, -, -, hparams, rfl⟩ := emitDomainRestrict_ok h
  apply Emission.safe_rule
  apply unbound_of_atoms
  simp only [Predicate.vars_atomOf, hparams, List.mem_append, List.mem_map, mem_mergeParams]
  grind

theorem safe_emitRangeRestrict (h : emitRangeRestrict a b names = .ok (em, later)) :
    em.Safe := by
  obtain ⟨result, vars, -, -, -, -, hparams, rfl⟩ := emitRangeRestrict_ok h
  apply Emission.safe_rule
  apply unbound_of_atoms
  simp only [Predicate.vars_atomOf, hparams, List.mem_append, List.mem_map, mem_mergeParams]
  grind

/-! ## Relations of two columns -/

theorem safe_emitClosure (h : emitClosure a names = .ok (em, later)) : em.Safe := by
  obtain ⟨result, source, target, middle, type, -, -, -, hparams, rfl⟩ := emitClosure_ok h
  apply Emission.safe_single
  intro rule hrule
  rcases List.mem_pair.mp hrule with rfl | rfl
  · apply unbound_of_atom
    simp [hparams]
  · apply unbound_of_atoms
    simp only [Predicate.vars_atomOf, List.mem_append, List.mem_cons, List.not_mem_nil, or_false]
    tauto

theorem safe_emitTranspose (h : emitTranspose a names = .ok (em, later)) : em.Safe := by
  obtain ⟨result, source, target, -, -, -, hparams, rfl⟩ := emitTranspose_ok h
  apply Emission.safe_rule
  apply unbound_of_atom
  simp +contextual [hparams]

/-! ## Quantifiers, set operations and aggregates -/

/-- A rule whose head has no variables but those of parameters that are grounded, and of terms that
its first literals bind. -/
theorem unbound_of_ground (hscope : scope.WellScoped) {head : Atom} (first : List Literal)
    {params bound : List String} {grounding : List Literal}
    (hground : scope.ground params bound = .ok grounding)
    (hbound : ∀ x ∈ bound, paramVar x ∈ first.flatMap Literal.binds)
    (h : ∀ v ∈ head.vars ++ first.flatMap Literal.needs,
      v ∈ first.flatMap Literal.binds ∨ v ∈ params.map paramVar) :
    (⟨head, first ++ grounding⟩ : Rule).unbound = [] := by
  have hcovered : ∀ v ∈ head.vars ++ first.flatMap Literal.needs,
      v ∈ (first ++ grounding).flatMap Literal.binds := by
    intro v hv
    rw [List.flatMap_append, List.mem_append]
    rcases h v hv with hfirst | hparam
    · exact .inl hfirst
    · obtain ⟨x, hx, rfl⟩ := List.mem_map.mp hparam
      rcases hscope.ground_binds hground hx with hmem | hmem
      · exact .inl (hbound x hmem)
      · exact .inr hmem
  apply unbound_of_binds
  · intro v hv
    exact hcovered v (List.mem_append_left _ hv)
  · intro v hv
    rw [List.flatMap_append, needs_ground hground, List.append_nil] at hv
    exact hcovered v (List.mem_append_right _ hv)

theorem safe_emitQuantifier (hscope : scope.WellScoped) {quantifier : Quantifier}
    (h : emitQuantifier quantifier a scope names = .ok (em, later)) : em.Safe := by
  obtain ⟨result, rules, -, -, hparams, rfl, hrules⟩ := emitQuantifier_ok h
  apply Emission.safe_single
  cases quantifier with
  | some =>
      rw [hrules, List.forall_mem_singleton]
      apply unbound_of_atom
      simp [hparams]
  | no =>
      obtain ⟨grounding, hground, rfl⟩ := hrules
      rw [List.forall_mem_singleton]
      apply unbound_of_ground hscope [.negated a.wildcardAtom] hground
      · simp
      · simp +contextual [Literal.needs, hparams]

theorem safe_emitSetOperation (hscope : scope.WellScoped) {operation : SetOp}
    (h : emitSetOperation operation a b scope names = .ok (em, later)) : em.Safe := by
  obtain ⟨result, vars, rules, -, -, -, -, hparams, rfl, hrules⟩ := emitSetOperation_ok h
  apply Emission.safe_single
  cases operation with
  | union =>
      obtain ⟨forLeft, forRight, hleft, hright, rfl⟩ := hrules
      intro rule hrule
      rcases List.mem_pair.mp hrule with rfl | rfl
      · apply unbound_of_ground hscope [.positive (a.atomOf vars)] hleft
        · simp +contextual [Literal.binds]
        · simp only [Literal.binds, Literal.needs, List.flatMap_cons, List.flatMap_nil,
            Predicate.vars_atomOf, List.mem_append]
          tauto
      · apply unbound_of_ground hscope [.positive (b.atomOf vars)] hright
        · simp +contextual [Literal.binds]
        · simp only [Literal.binds, Literal.needs, List.flatMap_cons, List.flatMap_nil,
            Predicate.vars_atomOf, List.mem_append]
          tauto
  | intersection =>
      rw [hrules, List.forall_mem_singleton]
      apply unbound_of_atoms
      simp only [Predicate.vars_atomOf, hparams, List.mem_append, List.mem_map, mem_mergeParams]
      grind
  | difference =>
      obtain ⟨grounding, hground, rfl⟩ := hrules
      rw [List.forall_mem_singleton]
      apply unbound_of_ground hscope [.positive (a.atomOf vars), .negated (b.atomOf vars)] hground
      · simp +contextual [Literal.binds]
      · simp only [Literal.binds, Literal.needs, List.flatMap_cons, List.flatMap_nil,
          Predicate.vars_atomOf, hparams, List.mem_append, List.mem_map, mem_mergeParams]
        grind

theorem safe_emitCount (hscope : scope.WellScoped)
    (h : emitCount a scope names = .ok (em, later)) : em.Safe := by
  obtain ⟨result, count, grounding, -, hground, -, hparams, rfl⟩ := emitCount_ok h
  apply Emission.safe_rule
  apply unbound_of_ground hscope [.aggregate ⟨count, .count, none, a.wildcardAtom⟩] hground
  · simp
  · simp +contextual [Literal.needs, Literal.binds, hparams]

theorem safe_emitAggregate (hscope : scope.WellScoped) {function : NumericAggregate}
    (h : emitAggregate function a scope names = .ok (em, later)) : em.Safe := by
  obtain ⟨result, value, each, grounding, -, -, hground, -, hparams, rfl⟩ := emitAggregate_ok h
  apply Emission.safe_rule
  apply unbound_of_ground hscope [.aggregate ⟨value, aggregateFunction function, some each,
    a.atom (a.wildcards.dropLast ++ [.var each])⟩] hground
  · simp
  · simp +contextual [Literal.needs, Literal.binds, hparams]

/-! ## Literals, formulas, comparisons and arithmetic -/

theorem mem_assignments_assign {rule : Rule} {target : String} {value : Datalog.ScalarExpr}
    (h : Literal.assign target value ∈ rule.body) :
    (target, value.vars) ∈ rule.assignments := by
  refine List.mem_flatMap.mpr ⟨_, h, ?_⟩
  simp [Literal.assign, Literal.assignments, Literal.assignment?]

theorem needs_assign (target : String) (value : Datalog.ScalarExpr) :
    (Literal.assign target value).needs = target :: value.vars :=
  rfl

/-- A rule that ends in an assignment is safe when the literals before it bind all that they need,
the value, and all of the head but the target. -/
theorem unbound_of_assign {head : Atom} (first : List Literal) {target : String}
    {value : Datalog.ScalarExpr}
    (hfirst : ∀ v ∈ first.flatMap Literal.needs, v ∈ first.flatMap Literal.binds)
    (hvalue : ∀ v ∈ value.vars, v ∈ first.flatMap Literal.binds)
    (hhead : ∀ v ∈ head.vars, v = target ∨ v ∈ first.flatMap Literal.binds) :
    (⟨head, first ++ [.assign target value]⟩ : Rule).unbound = [] := by
  have hbinds : ∀ v ∈ first.flatMap Literal.binds,
      v ∈ (first ++ [Literal.assign target value]).flatMap Literal.binds := by
    intro v hv
    rw [List.flatMap_append]
    exact List.mem_append_left _ hv
  apply Rule.unbound_eq_nil
  intro v hv
  have hcases : v = target ∨ v ∈ first.flatMap Literal.binds := by
    simp only [Rule.needed, List.flatMap_append, List.flatMap_cons, List.flatMap_nil,
      List.append_nil, needs_assign, List.mem_append, List.mem_cons] at hv
    rcases hv with hv | hv | hv | hv
    · exact hhead v hv
    · exact .inr (hfirst v hv)
    · exact .inl hv
    · exact .inr (hvalue v hv)
  rcases hcases with rfl | hbound
  · refine .inr ⟨_, mem_assignments_assign (List.mem_append_right _ List.mem_cons_self), ?_⟩
    intro u hu
    exact hbinds u (hvalue u hu)
  · exact .inl (hbinds v hbound)

theorem safe_emitConstant {constant : Constant}
    (h : emitConstant constant names = .ok (em, later)) : em.Safe := by
  obtain ⟨result, value, -, -, hparams, rfl⟩ := emitConstant_ok h
  have hvars : (constantTerm constant).2.var? = none := by cases constant <;> rfl
  apply Emission.safe_rule
  apply unbound_of_assign []
  · simp
  · simp [Datalog.ScalarExpr.vars, hvars]
  · simp [hparams]

theorem safe_emitFormula (hscope : scope.WellScoped) {text : String}
    (h : emitFormula text scope names = .ok (em, later)) : em.Safe := by
  obtain ⟨result, value, grounding, -, hground, -, hparams, rfl⟩ := emitFormula_ok h
  apply Emission.safe_rule
  apply unbound_of_assign grounding
  · simp [needs_ground hground]
  · simp [Datalog.ScalarExpr.vars]
  · intro v hv
    rw [Predicate.vars_atomOf, hparams, List.mem_append, List.mem_singleton, List.mem_map] at hv
    rcases hv with rfl | ⟨x, hx, rfl⟩
    · exact .inl rfl
    · exact .inr ((hscope.ground_binds hground hx).resolve_left List.not_mem_nil)

theorem safe_emitComparison {comparison : Comparison}
    (h : emitComparison comparison a b names = .ok (em, later)) : em.Safe := by
  obtain ⟨result, lhs, rhs, type, -, -, -, -, -, hparams, rfl⟩ := emitComparison_ok h
  apply Emission.safe_rule
  apply unbound_of_binds
  · intro v hv
    simp only [Predicate.vars_atom, hparams, List.filterMap_nil, List.nil_append, List.mem_map,
      mem_mergeParams] at hv
    obtain ⟨x, hx | hx, rfl⟩ := hv <;> simp [Literal.binds, hx]
  · simp +contextual [Literal.binds, Literal.needs, Datalog.ScalarExpr.vars]

theorem safe_emitArithmetic {operation : Arithmetic}
    (h : emitArithmetic operation a b names = .ok (em, later)) : em.Safe := by
  obtain ⟨result, lhs, rhs, value, -, -, -, -, hparams, rfl⟩ := emitArithmetic_ok h
  apply Emission.safe_rule
  apply unbound_of_assign [.positive (a.atomOf [lhs]), .positive (b.atomOf [rhs])]
  · simp [Literal.needs]
  · simp [Datalog.ScalarExpr.vars, Literal.binds]
  · intro v hv
    rw [Predicate.vars_atomOf, hparams, List.mem_append, List.mem_singleton, List.mem_map] at hv
    rcases hv with rfl | ⟨x, hx, rfl⟩
    · exact .inl rfl
    · rcases mem_mergeParams.mp hx with hx | hx <;> simp [Literal.binds, hx]

/-! ## Ranks and concatenation -/

theorem safe_rank {d : Definition} (h : rank a names = .ok (d, later)) :
    ∀ rule ∈ d.rules, rule.unbound = [] := by
  obtain ⟨ranked, vars, previous, next, -, -, -, -, hparams, rfl⟩ := rank_ok h
  intro rule hrule
  rcases List.mem_pair.mp hrule with rfl | rfl
  · apply unbound_of_atom
    simp [hparams]
  · apply unbound_of_assign
      [.positive (ranked.atom (.var previous :: a.wildcards)), .positive (a.atomOf vars)]
    · simp [Literal.needs]
    · simp [successor, Datalog.ScalarExpr.vars, Literal.binds]
    · simp only [Predicate.vars_atomOf, hparams, List.flatMap_cons, List.flatMap_nil,
        Literal.binds, List.mem_append, List.mem_cons]
      tauto

theorem safe_accumulator {ranked : Predicate} {d : Definition}
    (hranked : ranked.params = a.params)
    (h : accumulator a ranked names = .ok (d, later)) :
    ∀ rule ∈ d.rules, rule.unbound = [] := by
  obtain ⟨sums, first, previousRank, previousSum, rank, text, sum, -, -, hparams, rfl⟩ :=
    accumulator_ok h
  intro rule hrule
  rcases List.mem_pair.mp hrule with rfl | rfl
  · apply unbound_of_atom
    simp only [Predicate.vars_atom, hparams, hranked, List.filterMap_append, List.filterMap_cons,
      Datalog.Term.var?_number, Datalog.Term.var?_var, List.filterMap_nil, List.mem_append]
    tauto
  · apply unbound_of_assign [.positive (sums.atomOf [previousRank, previousSum]),
      .positive (ranked.atom (Datalog.Term.var rank :: a.wildcards.dropLast ++
        [Datalog.Term.var text])),
      .assign rank (successor previousRank)]
    · simp [Literal.needs, Literal.assign, successor, Datalog.ScalarExpr.vars, Literal.binds]
    · simp [Datalog.ScalarExpr.vars, Datalog.ScalarExpr.varsAll, Literal.binds]
    · simp only [Predicate.vars_atomOf, List.flatMap_cons, Literal.binds, List.mem_append,
        Predicate.vars_atom, List.cons_append, List.filterMap_cons, Datalog.Term.var?_var,
        List.mem_cons, List.not_mem_nil]
      tauto

theorem safe_highestRank {ranked : Predicate} {d : Definition}
    (hranked : ranked.params = a.params)
    (h : highestRank a ranked names = .ok (d, later)) :
    ∀ rule ∈ d.rules, rule.unbound = [] := by
  obtain ⟨top, highest, each, -, -, hparams, rfl⟩ := highestRank_ok h
  rw [List.forall_mem_singleton]
  apply unbound_of_binds
  · simp +contextual [hparams, hranked, Literal.binds]
  · simp [Literal.needs]

theorem safe_concatenated {sums top : Predicate} {d : Definition}
    (h : concatenated sums top names = .ok (d, later)) :
    ∀ rule ∈ d.rules, rule.unbound = [] := by
  obtain ⟨result, highest, text, -, -, hparams, rfl⟩ := concatenated_ok h
  rw [List.forall_mem_singleton]
  apply unbound_of_atoms
  simp only [Predicate.vars_atomOf, hparams, List.mem_append, List.mem_cons]
  tauto

theorem safe_emitConcat (h : emitConcat a names = .ok (em, later)) : em.Safe := by
  obtain ⟨ranked, sums, top, result, mid₁, mid₂, mid₃, -, hranked, hsums, htop, hresult, rfl⟩ :=
    emitConcat_ok h
  have hparams := params_of_rank hranked
  intro d hd
  simp only [Emission.definitions, List.cons_append, List.nil_append, List.mem_cons,
    List.not_mem_nil, or_false] at hd
  rcases hd with rfl | rfl | rfl | rfl
  · exact safe_rank hranked
  · exact safe_accumulator hparams hsums
  · exact safe_highestRank hparams htop
  · exact safe_concatenated hresult

/-! ## Names and comprehensions -/

theorem safe_emitScalar (hscope : scope.WellScoped) {scalar : String} {binding : ScalarBinding}
    (hlookup : scope.lookup scalar = some (.scalar binding))
    (h : emitScalar scalar binding names = .ok (em, later)) : em.Safe := by
  obtain ⟨result, -, -, hparams, rfl⟩ := emitScalar_ok h
  apply Emission.safe_rule
  apply unbound_of_atom
  intro v hv
  rw [hscope.scalar_vars hlookup]
  simp only [Predicate.vars_atomOf, hparams, List.mem_append, List.mem_singleton, List.mem_map,
    mem_mergeParams] at hv
  rcases hv with rfl | ⟨x, rfl | hx, rfl⟩
  · exact List.mem_map_of_mem List.mem_cons_self
  · exact List.mem_map_of_mem List.mem_cons_self
  · exact List.mem_map_of_mem (List.mem_cons_of_mem _ hx)

theorem safe_emitComprehension {style : Style} {scalars : List String}
    {constraint body : Predicate}
    (h : emitComprehension style scalars constraint body names = .ok (em, later)) :
    em.Safe := by
  obtain ⟨result, vars, -, -, -, hparams, rfl⟩ := emitComprehension_ok h
  have hkept : ∀ v ∈ keptVars style scalars, v ∈ scalars.map paramVar := by
    cases style with
    | keep => exact fun _ hv => hv
    | image => simp [keptVars]
  apply Emission.safe_rule
  apply unbound_of_atoms
  simp only [Predicate.vars_atomOf, hparams, List.mem_append]
  rintro v ((hv | hv) | hv)
  · exact .inr (.inl (hkept v hv))
  · exact .inl (.inl hv)
  · obtain ⟨x, hx, rfl⟩ := List.mem_map.mp hv
    rcases mem_mergeParams.mp hx with hx | hx
    · exact .inl (.inr (List.mem_map_of_mem (List.mem_of_mem_filter hx)))
    · exact .inr (.inr (List.mem_map_of_mem hx))

/-! ## All rules of a program -/

theorem safe_emitUnary (hscope : scope.WellScoped) {op : UnaryOp}
    (h : emitUnary op a scope names = .ok (em, later)) : em.Safe := by
  cases op with
  | quantify quantifier => exact safe_emitQuantifier hscope h
  | count => exact safe_emitCount hscope h
  | closure => exact safe_emitClosure h
  | reflexiveClosure => simp [emitUnary, throw_eq_ok] at h
  | transpose => exact safe_emitTranspose h
  | aggregate function => exact safe_emitAggregate hscope h
  | wildcardApply => exact safe_emitDropFirst h
  | index =>
      obtain ⟨ranked, hranked, rfl⟩ := emitIndex_ok h
      intro d hd
      simp only [Emission.definitions, List.nil_append, List.mem_singleton] at hd
      subst hd
      exact safe_rank hranked
  | concat => exact safe_emitConcat h

theorem safe_emitBinary (hscope : scope.WellScoped) {op : BinaryOp}
    (h : emitBinary op a b scope names = .ok (em, later)) : em.Safe := by
  cases op with
  | join => exact safe_emitJoin h
  | compare comparison => exact safe_emitComparison h
  | set operation => exact safe_emitSetOperation hscope h
  | product => exact safe_emitProduct h
  | apply => exact safe_emitApply h
  | domainRestrict => exact safe_emitDomainRestrict h
  | rangeRestrict => exact safe_emitRangeRestrict h
  | arith operation => exact safe_emitArithmetic h

/-- What a node emits in a well-scoped scope is safe. -/
theorem Emits.safe (hscope : scope.WellScoped) (h : Emits scope em) : em.Safe := by
  cases h with
  | scalar hlookup hemit => exact safe_emitScalar hscope hlookup hemit
  | constant hemit => exact safe_emitConstant hemit
  | formula hemit => exact safe_emitFormula hscope hemit
  | unary hemit => exact safe_emitUnary hscope hemit
  | dropLast hemit => exact safe_emitDropLast hemit
  | binary hemit => exact safe_emitBinary hscope hemit
  | comprehension hemit => exact safe_emitComprehension hemit

end RelQuery.Compile

namespace RelQuery

open Compile

/-- A compiled expression can be assembled, and every rule of its program is range-restricted:
`Rule.unbound` finds no variable, and each variable of the head, of a negated atom and of a
constraint is bound by a positive atom, by an aggregate or by assignments from such variables. -/
theorem assembled_rules_range_restricted {inputs : List (String × List ColumnType)}
    {scope : Scope} {e : Expr} {options : Options} {c : Compiled}
    (hinputs : Scope.ofInputs inputs = .ok scope) (hcompile : e.compile scope options = .ok c) :
    ∃ program, c.assemble scope = .ok program ∧ ∀ rule ∈ program.rules,
      rule.unbound = [] ∧
      (∀ v ∈ rule.head.vars, rule.Binds v) ∧
      ∀ l ∈ rule.body, ∀ v ∈ l.needs, rule.Binds v := by
  obtain ⟨program, sites, decls, hassemble, hassembly⟩ := exists_assembly hinputs hcompile
  obtain ⟨later, hderives⟩ := hassembly.derives
  have hscoped := (hderives.wellScoped (Scope.wellScoped_ofInputs hinputs)).2
  refine ⟨program, hassemble, ?_⟩
  intro rule hrule
  rw [hassembly.rules] at hrule
  obtain ⟨site, hsite, hrule⟩ := List.mem_flatMap.mp hrule
  obtain ⟨em, hem, hdefinition⟩ := hderives.emits site hsite
  have hunbound := hem.safe (hscoped site hsite).scope site.definition hdefinition rule hrule
  have hbinds : ∀ v ∈ rule.needed, rule.Binds v := by
    intro v hv
    exact Datalog.Rule.binds_of_mem_bound (Datalog.Rule.unbound_eq_nil_iff.mp hunbound v hv)
  refine ⟨hunbound, ?_, ?_⟩
  · intro v hv
    exact hbinds v (List.mem_append_left _ hv)
  · intro l hl v hv
    exact hbinds v (List.mem_append_right _ (List.mem_flatMap.mpr ⟨l, hl, hv⟩))

theorem sample_rules_range_restricted :
    ∃ c program, Scope.ofInputs Sample.inputs = .ok Sample.scope ∧
      Sample.query.compile Sample.scope ⟨true⟩ = .ok c ∧
      c.assemble Sample.scope = .ok program ∧
      (Sample.withoutOrder ∈ program.rules ∧ Sample.withoutOrder.head.vars = ["x_e"] ∧
        Sample.withoutOrder.Binds "x_e") ∧
      ∀ rule ∈ program.rules,
        rule.unbound = [] ∧
        (∀ v ∈ rule.head.vars, rule.Binds v) ∧
        ∀ l ∈ rule.body, ∀ v ∈ l.needs, rule.Binds v := by
  obtain ⟨c, program, hcompile, hassemble, hrule, -⟩ := Sample.exists_assembled
  obtain ⟨program', hassemble', hrules⟩ :=
    assembled_rules_range_restricted Sample.scope_ofInputs hcompile
  obtain rfl : program = program' := Except.ok.inj (hassemble.symm.trans hassemble')
  have hbinds := (hrules _ hrule).2.1 "x_e" List.mem_cons_self
  exact ⟨c, program, Sample.scope_ofInputs, hcompile, hassemble, ⟨hrule, rfl, hbinds⟩, hrules⟩

end RelQuery
