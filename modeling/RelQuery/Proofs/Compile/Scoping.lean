import RelQuery.Proofs.Compile.Derivation

/-!
# Compiled predicates depend on scalars in scope

The scope of a comprehension body is well scoped when the scope around it is.  By induction over
derivations, every predicate that is defined has parameters that are scalars of the scope in which
it is defined, so its declaration can be printed.
-/

namespace RelQuery.Compile

open Datalog (Command)

variable {scope : Scope} {c : Predicate} {scalars : List String} {x : String}

/-! ## The scope of a comprehension body -/

theorem firstRebound?_eq_none {seen : List String}
    (h : firstRebound? scope seen scalars = none) :
    scalars.Nodup ∧ (∀ x ∈ scalars, x ∉ seen) ∧ ∀ x ∈ scalars, scope.lookup x = none := by
  induction scalars generalizing seen with
  | nil => simp
  | cons name rest ih =>
      rw [firstRebound?] at h
      split at h
      · cases h
      · rename_i hfree
        simp only [Bool.or_eq_true, List.contains_eq_mem, decide_eq_true_eq, not_or,
          Bool.not_eq_true] at hfree
        obtain ⟨hnodup, hseen, hunbound⟩ := ih h
        refine ⟨List.nodup_cons.mpr ⟨?_, hnodup⟩, ?_, ?_⟩
        · intro hmem
          exact hseen name hmem List.mem_cons_self
        · intro x hx hxseen
          rcases List.mem_cons.mp hx with rfl | hx
          · exact hfree.2 hxseen
          · exact hseen x hx (List.mem_cons_of_mem name hxseen)
        · intro x hx
          rcases List.mem_cons.mp hx with rfl | hx
          · exact Scope.isBound_eq_false_iff.mp hfree.1
          · exact hunbound x hx

theorem firstRebound?_of_free {seen : List String} (hnodup : scalars.Nodup)
    (hseen : ∀ x ∈ scalars, x ∉ seen) (hunbound : ∀ x ∈ scalars, scope.lookup x = none) :
    firstRebound? scope seen scalars = none := by
  induction scalars generalizing seen with
  | nil => rfl
  | cons name rest ih =>
      rw [List.nodup_cons] at hnodup
      have hbound : scope.isBound name = false :=
        Scope.isBound_eq_false_iff.mpr (hunbound name List.mem_cons_self)
      have hnew : name ∉ seen := hseen name List.mem_cons_self
      rw [firstRebound?, if_neg (by simp [hbound, hnew])]
      apply ih hnodup.2
      · intro x hx hmem
        rcases List.mem_cons.mp hmem with rfl | hmem
        · exact hnodup.1 hx
        · exact hseen x (List.mem_cons_of_mem name hx) hmem
      · intro x hx
        exact hunbound x (List.mem_cons_of_mem name hx)

/-- A scalar of a scope is none of the names that a comprehension may bind in it. -/
theorem notMem_of_isScalar (hunbound : ∀ x ∈ scalars, scope.lookup x = none)
    (hx : scope.IsScalar x) : x ∉ scalars := by
  intro hmem
  obtain ⟨s, hs⟩ := hx
  rw [hunbound x hmem] at hs
  cases hs

/-- The entries that a comprehension adds to a scope, in the order of its variables. -/
def comprehensionEntries (c : Predicate) (scalars : List String) : List (String × Binding) :=
  (scalars.zip c.columns).zipIdx.map fun entry =>
    (entry.1.1, .scalar (comprehensionScalar c scalars entry.2 entry.1.1 entry.1.2))

theorem frames_comprehensionScope (scope : Scope) (c : Predicate) (scalars : List String) :
    (comprehensionScope scope c scalars).frames =
      (comprehensionEntries c scalars).reverse ++ scope.frames := by
  unfold comprehensionScope comprehensionEntries
  generalize (scalars.zip c.columns).zipIdx = entries
  induction entries generalizing scope with
  | nil => rfl
  | cons entry rest ih =>
      rw [List.foldl_cons, ih, List.map_cons, List.reverse_cons, List.append_assoc]
      rfl

theorem names_comprehensionEntries (harity : c.arity = scalars.length) :
    (comprehensionEntries c scalars).map Prod.fst = scalars := by
  have hzip : (comprehensionEntries c scalars).map Prod.fst =
      (scalars.zip c.columns).map Prod.fst := by
    unfold comprehensionEntries
    rw [List.map_map]
    conv_rhs => rw [← List.zipIdx_map_fst 0 (scalars.zip c.columns), List.map_map]
    rfl
  rw [hzip]
  exact List.map_fst_zip (Nat.le_of_eq harity.symm)

theorem mem_comprehensionEntries {binding : Binding} :
    (x, binding) ∈ comprehensionEntries c scalars ↔
      ∃ k column, scalars[k]? = some x ∧ c.columns[k]? = some column ∧
        binding = .scalar (comprehensionScalar c scalars k x column) := by
  unfold comprehensionEntries
  rw [List.mem_map]
  constructor
  · rintro ⟨⟨⟨y, column⟩, k⟩, hmem, heq⟩
    rw [List.mem_zipIdx_iff_getElem?, List.getElem?_zip_eq_some] at hmem
    cases heq
    exact ⟨k, column, hmem.1, hmem.2, rfl⟩
  · rintro ⟨k, column, hx, hcolumn, rfl⟩
    refine ⟨((x, column), k), ?_, rfl⟩
    rw [List.mem_zipIdx_iff_getElem?, List.getElem?_zip_eq_some]
    exact ⟨hx, hcolumn⟩

theorem vars_comprehensionScalar {k : Nat} {column : Column} (hk : scalars[k]? = some x)
    (v : String) :
    v ∈ (comprehensionScalar c scalars k x column).constraint.vars ↔
      v ∈ (x :: c.params).map paramVar := by
  have hterms : v ∈ (scalars.mapIdx fun j _ =>
      if k = j then Datalog.Term.var (paramVar x) else .wildcard).filterMap Datalog.Term.var? ↔
        v = paramVar x := by
    rw [List.mem_filterMap]
    constructor
    · rintro ⟨term, hterm, hvar⟩
      obtain ⟨j, hj, rfl⟩ := List.mem_mapIdx.mp hterm
      by_cases heq : k = j
      · simpa [heq, Datalog.Term.var?, eq_comm] using hvar
      · simp [heq, Datalog.Term.var?] at hvar
    · rintro rfl
      refine ⟨.var (paramVar x), ?_, rfl⟩
      obtain ⟨hlt, -⟩ := List.getElem?_eq_some_iff.mp hk
      exact List.mem_mapIdx.mpr ⟨k, hlt, by simp⟩
  rw [comprehensionScalar, Predicate.vars_atom, List.mem_append, hterms, List.map_cons,
    List.mem_cons]

section Comprehension

variable (hscope : scope.WellScoped) (hnodup : scalars.Nodup)
variable (hunbound : ∀ x ∈ scalars, scope.lookup x = none)
variable (harity : c.arity = scalars.length)

include hscope hnodup hunbound harity

theorem distinct_comprehensionScope :
    ((comprehensionScope scope c scalars).frames.map Prod.fst).Nodup := by
  rw [frames_comprehensionScope, List.map_append, List.map_reverse,
    names_comprehensionEntries harity]
  refine List.Nodup.append (List.nodup_reverse.mpr hnodup) hscope.distinct ?_
  intro x hx hmem
  exact lookup_eq_none_iff_notMem.mp (hunbound x (List.mem_reverse.mp hx)) hmem

theorem lookup_comprehensionScope {binding : Binding} :
    (comprehensionScope scope c scalars).lookup x = some binding ↔
      (x, binding) ∈ comprehensionEntries c scalars ∨ scope.lookup x = some binding := by
  unfold Scope.lookup
  rw [lookup_eq_some_iff_mem (distinct_comprehensionScope hscope hnodup hunbound harity),
    frames_comprehensionScope, List.mem_append, List.mem_reverse,
    lookup_eq_some_iff_mem hscope.distinct]

theorem isScalar_comprehensionScope_of_outer (hx : scope.IsScalar x) :
    (comprehensionScope scope c scalars).IsScalar x := by
  obtain ⟨s, hs⟩ := hx
  exact ⟨s, (lookup_comprehensionScope hscope hnodup hunbound harity).mpr (.inr hs)⟩

/-- A scalar of the body that is no variable of the comprehension is a scalar outside. -/
theorem isScalar_of_comprehensionScope (hx : (comprehensionScope scope c scalars).IsScalar x)
    (hnot : x ∉ scalars) : scope.IsScalar x := by
  obtain ⟨s, hs⟩ := hx
  rcases (lookup_comprehensionScope hscope hnodup hunbound harity).mp hs with hentry | houter
  · obtain ⟨k, column, hk, -, -⟩ := mem_comprehensionEntries.mp hentry
    exact (hnot (List.mem_of_getElem? hk)).elim
  · exact ⟨s, houter⟩

/-- A comprehension keeps a scope well scoped. -/
theorem wellScoped_comprehensionScope (hparams : ∀ x ∈ c.params, scope.IsScalar x) :
    (comprehensionScope scope c scalars).WellScoped where
  distinct := distinct_comprehensionScope hscope hnodup hunbound harity
  relation_params := by
    intro name p hp x hx
    rcases (lookup_comprehensionScope hscope hnodup hunbound harity).mp hp with hentry | houter
    · obtain ⟨k, column, -, -, heq⟩ := mem_comprehensionEntries.mp hentry
      cases heq
    · exact isScalar_comprehensionScope_of_outer hscope hnodup hunbound harity
        (hscope.relation_params houter x hx)
  scalar_params := by
    intro name s hs x hx
    apply isScalar_comprehensionScope_of_outer hscope hnodup hunbound harity
    rcases (lookup_comprehensionScope hscope hnodup hunbound harity).mp hs with hentry | houter
    · obtain ⟨k, column, -, -, heq⟩ := mem_comprehensionEntries.mp hentry
      cases heq
      exact hparams x hx
    · exact hscope.scalar_params houter x hx
  scalar_vars := by
    intro name s hs v
    rcases (lookup_comprehensionScope hscope hnodup hunbound harity).mp hs with hentry | houter
    · obtain ⟨k, column, hk, -, heq⟩ := mem_comprehensionEntries.mp hentry
      cases heq
      exact vars_comprehensionScalar hk v
    · exact hscope.scalar_vars houter v

end Comprehension

/-! ## Parameters of what a node defines -/

variable {names mid later : FreshNames} {a b : Predicate} {em : Emission} {d : Definition}

theorem params_of_rank (h : rank a names = .ok (d, later)) : d.predicate.params = a.params := by
  obtain ⟨ranked, vars, previous, next, -, -, -, -, hparams, rfl⟩ := rank_ok h
  exact hparams

theorem params_of_concat (h : emitConcat a names = .ok (em, later)) (hd : d ∈ em.definitions) :
    d.predicate.params = a.params := by
  obtain ⟨ranked, sums, top, result, mid₁, mid₂, mid₃, -, hranked, hsums, htop, hresult, rfl⟩ :=
    emitConcat_ok h
  obtain ⟨sums', first, previousRank, previousSum, rank, text, sum, -, -, hsums', rfl⟩ :=
    accumulator_ok hsums
  obtain ⟨top', highest, each, -, -, htop', rfl⟩ := highestRank_ok htop
  obtain ⟨result', highest', text', -, -, hresult', rfl⟩ := concatenated_ok hresult
  simp only [Emission.definitions, List.cons_append, List.nil_append, List.mem_cons,
    List.not_mem_nil, or_false] at hd
  rcases hd with rfl | rfl | rfl | rfl
  · exact params_of_rank hranked
  · exact hsums'
  · exact htop'
  · exact hresult'.trans hsums'

/-- An operator on one relation adds no parameter. -/
theorem params_of_emitUnary {op : UnaryOp} (h : emitUnary op a scope names = .ok (em, later))
    (hd : d ∈ em.definitions) : d.predicate.params = a.params := by
  cases op with
  | quantify quantifier =>
      obtain ⟨result, rules, -, -, hparams, rfl, -⟩ := emitQuantifier_ok h
      rw [Emission.predicate_of_mem_single hd, hparams]
  | count =>
      obtain ⟨result, count, grounding, -, -, -, hparams, rfl⟩ := emitCount_ok h
      rw [Emission.predicate_of_mem_single hd, hparams]
  | closure =>
      obtain ⟨result, source, target, middle, type, -, -, -, hparams, rfl⟩ := emitClosure_ok h
      rw [Emission.predicate_of_mem_single hd, hparams]
  | reflexiveClosure => simp [emitUnary, throw_eq_ok] at h
  | transpose =>
      obtain ⟨result, source, target, -, -, -, hparams, rfl⟩ := emitTranspose_ok h
      rw [Emission.predicate_of_mem_single hd, hparams]
  | aggregate function =>
      obtain ⟨result, value, each, grounding, -, -, -, -, hparams, rfl⟩ := emitAggregate_ok h
      rw [Emission.predicate_of_mem_single hd, hparams]
  | wildcardApply =>
      obtain ⟨result, vars, -, -, -, -, hparams, rfl⟩ := emitDropFirst_ok h
      rw [Emission.predicate_of_mem_single hd, hparams]
  | index =>
      obtain ⟨ranked, hranked, rfl⟩ := emitIndex_ok h
      simp only [Emission.definitions, List.nil_append, List.mem_singleton] at hd
      rw [hd, params_of_rank hranked]
  | concat => exact params_of_concat h hd

/-- An operator on two relations merges their parameters. -/
theorem params_of_emitBinary {op : BinaryOp}
    (h : emitBinary op a b scope names = .ok (em, later)) (hd : d ∈ em.definitions) :
    d.predicate.params = mergeParams a.params b.params := by
  cases op with
  | join =>
      obtain ⟨result, left, right, type, -, -, -, -, -, -, hparams, rfl⟩ := emitJoin_ok h
      rw [Emission.predicate_of_mem_single hd, hparams]
  | compare comparison =>
      obtain ⟨result, lhs, rhs, type, -, -, -, -, -, hparams, rfl⟩ := emitComparison_ok h
      rw [Emission.predicate_of_mem_single hd, hparams]
  | set operation =>
      obtain ⟨result, vars, rules, -, -, -, -, hparams, rfl, -⟩ := emitSetOperation_ok h
      rw [Emission.predicate_of_mem_single hd, hparams]
  | product =>
      obtain ⟨result, left, right, -, -, -, -, hparams, rfl⟩ := emitProduct_ok h
      rw [Emission.predicate_of_mem_single hd, hparams]
  | apply =>
      obtain ⟨result, vars, -, -, -, -, hparams, rfl⟩ := emitApply_ok h
      rw [Emission.predicate_of_mem_single hd, hparams]
  | domainRestrict =>
      obtain ⟨result, vars, -, -, -, -, hparams, rfl⟩ := emitDomainRestrict_ok h
      rw [Emission.predicate_of_mem_single hd, hparams]
  | rangeRestrict =>
      obtain ⟨result, vars, -, -, -, -, hparams, rfl⟩ := emitRangeRestrict_ok h
      rw [Emission.predicate_of_mem_single hd, hparams]
  | arith operation =>
      obtain ⟨result, lhs, rhs, value, -, -, -, -, hparams, rfl⟩ := emitArithmetic_ok h
      rw [Emission.predicate_of_mem_single hd, hparams]

/-! ## All sites are well scoped -/

/-- The scope of a site is well scoped and holds every parameter of its predicate. -/
structure Site.WellScoped (site : Site) : Prop where
  scope : site.scope.WellScoped
  params : ∀ x ∈ site.predicate.params, site.scope.IsScalar x

theorem Emission.result_mem_definitions (em : Emission) : em.result ∈ em.definitions := by
  simp [Emission.definitions]

/-- Behind well-scoped sites, it is enough to know the parameters of what the node defines. -/
theorem Emission.wellScoped_sites (hscope : scope.WellScoped) {before : List Site}
    (hbefore : ∀ site ∈ before, site.WellScoped) (e : Expr)
    (hparams : ∀ d ∈ em.definitions, ∀ x ∈ d.predicate.params, scope.IsScalar x) :
    (∀ x ∈ em.result.predicate.params, scope.IsScalar x) ∧
      ∀ site ∈ before ++ em.sites e scope, site.WellScoped := by
  refine ⟨hparams em.result em.result_mem_definitions, ?_⟩
  intro site hsite
  rcases List.mem_append.mp hsite with hsite | hsite
  · exact hbefore site hsite
  · obtain ⟨d, hd, rfl⟩ := Emission.mem_sites.mp hsite
    exact ⟨hscope, hparams d hd⟩

/-- In a well-scoped scope every predicate that is defined is well scoped, and so is the value of
the expression. -/
theorem Derives.wellScoped {e : Expr} {p : Predicate} {sites : List Site}
    (h : Derives scope e names p sites later) (hscope : scope.WellScoped) :
    (∀ x ∈ p.params, scope.IsScalar x) ∧ ∀ site ∈ sites, site.WellScoped := by
  have hnone : ∀ site ∈ ([] : List Site), site.WellScoped := by simp
  induction h with
  | relation hlookup => exact ⟨hscope.relation_params hlookup, hnone⟩
  | @scalar scope name span names later binding em hlookup hemit =>
      obtain ⟨result, -, -, hparams, rfl⟩ := emitScalar_ok hemit
      apply Emission.wellScoped_sites hscope hnone
      intro d hd x hx
      rw [Emission.predicate_of_mem_single hd, hparams, mem_mergeParams,
        List.mem_singleton] at hx
      rcases hx with rfl | hx
      · exact ⟨binding, hlookup⟩
      · exact hscope.scalar_params hlookup x hx
  | constant hemit =>
      obtain ⟨result, value, -, -, hparams, rfl⟩ := emitConstant_ok hemit
      apply Emission.wellScoped_sites hscope hnone
      intro d hd x hx
      rw [Emission.predicate_of_mem_single hd, hparams] at hx
      exact absurd hx List.not_mem_nil
  | formula hemit =>
      obtain ⟨result, value, grounding, -, -, -, hparams, rfl⟩ := emitFormula_ok hemit
      apply Emission.wellScoped_sites hscope hnone
      intro d hd x hx
      rw [Emission.predicate_of_mem_single hd, hparams] at hx
      exact hscope.isScalar_of_mem hx
  | unary hop hwild hinner hemit ih =>
      obtain ⟨hoperand, hsites⟩ := ih hscope
      apply Emission.wellScoped_sites hscope hsites
      intro d hd x hx
      rw [params_of_emitUnary hemit hd] at hx
      exact hoperand x hx
  | dropFirst hleft hright hinner hemit ih =>
      obtain ⟨hoperand, hsites⟩ := ih hscope
      obtain ⟨result, vars, -, -, -, -, hparams, rfl⟩ := emitDropFirst_ok hemit
      apply Emission.wellScoped_sites hscope hsites
      intro d hd x hx
      rw [Emission.predicate_of_mem_single hd, hparams] at hx
      exact hoperand x hx
  | dropLast hleft hright hinner hemit ih =>
      obtain ⟨hoperand, hsites⟩ := ih hscope
      obtain ⟨result, vars, -, -, -, -, hparams, rfl⟩ := emitDropLast_ok hemit
      apply Emission.wellScoped_sites hscope hsites
      intro d hd x hx
      rw [Emission.predicate_of_mem_single hd, hparams] at hx
      exact hoperand x hx
  | binary hleft hright hfirst hsecond hemit ihfirst ihsecond =>
      obtain ⟨hoperand, hsites⟩ := ihfirst hscope
      obtain ⟨hoperand', hsites'⟩ := ihsecond hscope
      apply Emission.wellScoped_sites hscope (List.forall_mem_append.mpr ⟨hsites, hsites'⟩)
      intro d hd x hx
      rw [params_of_emitBinary hemit hd, mem_mergeParams] at hx
      exact hx.elim (hoperand x) (hoperand' x)
  | letIn hfree hwild hvalue hbody ihvalue ihbody =>
      have hlookup := Scope.isBound_eq_false_iff.mp hfree
      obtain ⟨hparams, hsites⟩ := ihvalue hscope
      obtain ⟨hbodyParams, hsites'⟩ := ihbody (hscope.bind_relation hlookup hparams)
      refine ⟨?_, List.forall_mem_append.mpr ⟨hsites, hsites'⟩⟩
      intro x hx
      exact Scope.isScalar_of_bind_relation (hbodyParams x hx)
  | comprehension hfree hwild hwild' hconstraint harity hbody hemit ihconstraint ihbody =>
      obtain ⟨hnodup, -, hunbound⟩ := firstRebound?_eq_none hfree
      obtain ⟨hparams, hsites⟩ := ihconstraint hscope
      obtain ⟨hbodyParams, hsites'⟩ :=
        ihbody (wellScoped_comprehensionScope hscope hnodup hunbound harity hparams)
      obtain ⟨result, vars, -, -, -, hresult, rfl⟩ := emitComprehension_ok hemit
      apply Emission.wellScoped_sites hscope (List.forall_mem_append.mpr ⟨hsites, hsites'⟩)
      intro d hd x hx
      rw [Emission.predicate_of_mem_single hd, hresult, mem_mergeParams, List.mem_filter] at hx
      rcases hx with ⟨hx, hnot⟩ | hx
      · refine isScalar_of_comprehensionScope hscope hnodup hunbound harity (hbodyParams x hx) ?_
        simpa using hnot
      · exact hparams x hx

/-- The sites of a derivation can be printed. -/
theorem exists_siteCommands {sites : List Site} (hsites : ∀ site ∈ sites, site.WellScoped)
    (options : Options) : ∃ commands, siteCommands options sites = .ok commands := by
  induction sites with
  | nil => exact ⟨[], rfl⟩
  | cons site rest ih =>
      obtain ⟨others, hothers⟩ := ih fun site hsite => hsites site (List.mem_cons_of_mem _ hsite)
      obtain ⟨decl, hdecl⟩ := Scope.exists_declare (hsites site List.mem_cons_self).params
        site.definition.choiceDomains
      have hblock : ∃ block,
          site.definition.commands options site.node site.scope = .ok block :=
        ⟨_, except_bind_eq_ok.mpr ⟨decl, hdecl, rfl⟩⟩
      obtain ⟨block, hblock⟩ := hblock
      exact ⟨_, siteCommands_cons_eq_ok.mpr ⟨block, others, hblock, hothers, rfl⟩⟩

end RelQuery.Compile
