import RelQuery.Proofs.Compile.OperatorTyping
import RelQuery.Proofs.Compile.Stratification
import RelQuery.Proofs.Datalog.Determinacy

/-!
# Generated programs are well typed

A predicate is declared in the scope of its site and used in deeper scopes.  No scalar is bound
again below its comprehension, so on the way into a scope the typing of scalars is extended and
never changed.  What was declared outside therefore stays declared, with the same types, inside.
-/

namespace RelQuery

open Datalog (Decl Rule Typing)

variable {decls : List Decl} {τ : Typing} {p : Predicate} {scope : Scope}

namespace Compile

variable {names later : FreshNames} {b c : Predicate} {em : Emission}

/-! ## Comprehensions -/

section Comprehension

variable {scalars : List String}

/-- The typing of the body of a comprehension, in which the variables have the types of the columns
of the constraint. -/
def bodyTyping (τ : Typing) (c : Predicate) (scalars : List String) : Typing :=
  override τ (scalars.map paramVar) c.types

theorem bodyTyping_of_notMem {x : String} (hx : x ∉ scalars) :
    τ (paramVar x) = bodyTyping τ c scalars (paramVar x) := by
  refine (override_of_notMem ?_).symm
  simpa using hx

theorem map_bodyTyping (hnodup : scalars.Nodup) (harity : c.arity = scalars.length) :
    (scalars.map paramVar).map (bodyTyping τ c scalars) = c.types :=
  map_override (hnodup.map paramVar_injective) (by simp [harity])

theorem typed_comprehensionScope (hscope : scope.WellScoped) (htyped : scope.Typed decls τ)
    (hc : c.DeclaredIn decls τ) (hparams : ∀ x ∈ c.params, scope.IsScalar x)
    (hnodup : scalars.Nodup) (hunbound : ∀ x ∈ scalars, scope.lookup x = none)
    (harity : c.arity = scalars.length) :
    (comprehensionScope scope c scalars).Typed decls (bodyTyping τ c scalars) := by
  have hagree : ∀ x, scope.IsScalar x →
      τ (paramVar x) = bodyTyping τ c scalars (paramVar x) :=
    fun x hx => bodyTyping_of_notMem (notMem_of_isScalar hunbound hx)
  have houter := htyped.congr hscope hagree
  have hc' := hc.congr fun x hx => hagree x (hparams x hx)
  have hvariable : ∀ {k : Nat} {x : String} {column : Column}, scalars[k]? = some x →
      c.columns[k]? = some column → bodyTyping τ c scalars (paramVar x) = column.type := by
    intro k x column hx hcolumn
    have hentry := congrArg (·[k]?) (map_bodyTyping (τ := τ) hnodup harity)
    simpa [Predicate.types, hx, hcolumn] using hentry
  constructor
  · intro name p hlookup
    rcases (lookup_comprehensionScope hscope hnodup hunbound harity).mp hlookup with
      hentry | hlookup
    · obtain ⟨k, column, -, -, heq⟩ := mem_comprehensionEntries.mp hentry
      cases heq
    · exact houter.relation hlookup
  · intro x s hlookup
    rcases (lookup_comprehensionScope hscope hnodup hunbound harity).mp hlookup with
      hentry | hlookup
    · obtain ⟨k, column, hx, hcolumn, heq⟩ := mem_comprehensionEntries.mp hentry
      cases heq
      exact hvariable hx hcolumn
    · exact houter.scalar hlookup
  · intro x s hlookup
    rcases (lookup_comprehensionScope hscope hnodup hunbound harity).mp hlookup with
      hentry | hlookup
    · obtain ⟨k, column, hx, hcolumn, heq⟩ := mem_comprehensionEntries.mp hentry
      cases heq
      apply hc'.atom
      refine List.forall₂_iff_get.mpr ⟨by simp [harity], ?_⟩
      intro j hj hj'
      simp only [List.get_eq_getElem, List.getElem_mapIdx]
      by_cases heq : k = j
      · subst heq
        rw [if_pos rfl]
        have htype : c.types[k]? = some column.type := by simp [Predicate.types, hcolumn]
        rw [List.getElem?_eq_getElem hj', Option.some.injEq] at htype
        exact (hvariable hx hcolumn).trans htype.symm
      · rw [if_neg heq]
        trivial
    · exact houter.constraint hlookup

theorem wellTyped_emitComprehension {style : Style} (hc : c.DeclaredIn decls τ)
    (hb : b.DeclaredIn decls (bodyTyping τ c scalars))
    (hdeclared : ∀ d ∈ em.definitions, d.predicate.DeclaredIn decls τ)
    (hfree : ∀ x ∈ c.params, x ∉ scalars) (hnodup : scalars.Nodup)
    (harity : c.arity = scalars.length)
    (h : emitComprehension style scalars c b names = .ok (em, later)) : em.WellTyped decls := by
  obtain ⟨result, vars, hissued, hlength, hcolumns, hresultParams, rfl⟩ :=
    emitComprehension_ok h
  have houter : ∀ x ∈ result.params, x ∉ scalars := by
    intro x hx
    rw [hresultParams, mem_mergeParams, List.mem_filter] at hx
    rcases hx with ⟨-, hnot⟩ | hx
    · simpa using hnot
    · exact hfree x hx
  have hdeclared' : ∀ d ∈ (Emission.single result (comprehensionLabel style)
      [⟨result.atomOf (keptVars style scalars ++ vars), [.positive (b.atomOf vars),
        .positive (c.atomOf (scalars.map paramVar))]⟩]).definitions,
      d.predicate.DeclaredIn decls (bodyTyping τ c scalars) := by
    intro d hd
    apply (hdeclared d hd).congr
    intro x hx
    rw [Emission.predicate_of_mem_single hd] at hx
    exact bodyTyping_of_notMem (houter x hx)
  refine Emission.wellTyped_single hissued hdeclared' b.types (by simp [hlength]) ?_
  intro τ' hagree hvars hresult
  have hbound : (scalars.map paramVar).map τ' = c.types := by
    rw [← map_bodyTyping (τ := τ) hnodup harity, List.map_map, List.map_map]
    exact List.map_congr_left fun x _ => (hagree x).symm
  have hkept : (keptVars style scalars).map τ' =
      (variableColumns style scalars c).map (·.type) := by
    cases style with
    | keep =>
        have hzip : (scalars.zip c.columns).map (·.2.type) = c.types := by
          conv_rhs => rw [Predicate.types, ← List.map_snd_zip harity.le, List.map_map]
          rfl
        rw [keptVars, hbound, variableColumns, List.map_map, ← hzip]
        rfl
    | image => rfl
  refine List.forall_mem_singleton.mpr ⟨hresult.atomOf ?_, forall_wellTyped_pair ?_ ?_⟩
  · rw [List.map_append, hkept, hvars, Predicate.types, Predicate.types, hcolumns,
      List.map_append]
  · exact (hb.congr fun x _ => hagree x).atomOf hvars
  · refine (hc.congr fun x hx => ?_).atomOf hbound
    exact (bodyTyping_of_notMem (hfree x hx)).trans (hagree x)

end Comprehension

/-! ## All sites are well typed -/

/-- A site whose predicate has its declaration among `decls`. -/
def Site.Declared (decls : List Decl) (site : Site) : Prop :=
  ∃ decl ∈ decls,
    site.scope.declare site.predicate site.definition.choiceDomains = .ok decl

/-- A site whose rules are well typed, each under a typing of its own. -/
def Site.WellTyped (decls : List Decl) (site : Site) : Prop :=
  ∀ rule ∈ site.definition.rules, ∃ τ, Rule.WellTyped decls τ rule

/-- Behind well-typed sites, it is enough to type what the node defines. -/
theorem Emission.wellTyped_sites (htyped : scope.Typed decls τ) {before : List Site} {e : Expr}
    (hbefore : ∀ site ∈ before, site.WellTyped decls)
    (hsites : ∀ site ∈ em.sites e scope, site.Declared decls)
    (hem : (∀ d ∈ em.definitions, d.predicate.DeclaredIn decls τ) → em.WellTyped decls) :
    em.result.predicate.DeclaredIn decls τ ∧
      ∀ site ∈ before ++ em.sites e scope, site.WellTyped decls := by
  have hdeclared : ∀ d ∈ em.definitions, d.predicate.DeclaredIn decls τ := by
    intro d hd
    obtain ⟨decl, hmem, hdecl⟩ := hsites ⟨e, scope, d⟩ (Emission.mem_sites.mpr ⟨d, hd, rfl⟩)
    exact htyped.declaredIn hmem hdecl
  refine ⟨hdeclared em.result em.result_mem_definitions,
    List.forall_mem_append.mpr ⟨hbefore, ?_⟩⟩
  intro site hsite
  obtain ⟨d, hd, rfl⟩ := Emission.mem_sites.mp hsite
  exact hem hdeclared d hd

/-- Where all sites are declared, the value of the expression is declared and all rules are well
typed. -/
theorem Derives.wellTyped {e : Expr} {sites : List Site}
    (h : Derives scope e names p sites later) (hscope : scope.WellScoped)
    (htyped : scope.Typed decls τ) (hsites : ∀ site ∈ sites, site.Declared decls) :
    p.DeclaredIn decls τ ∧ ∀ site ∈ sites, site.WellTyped decls := by
  have hnone : ∀ site ∈ ([] : List Site), site.WellTyped decls := by simp
  induction h generalizing τ with
  | relation hlookup => exact ⟨htyped.relation hlookup, hnone⟩
  | scalar hlookup hemit =>
      exact Emission.wellTyped_sites htyped hnone hsites fun hdeclared =>
        wellTyped_emitScalar hscope htyped hdeclared hlookup hemit
  | constant hemit =>
      exact Emission.wellTyped_sites htyped hnone hsites fun hdeclared =>
        wellTyped_emitConstant hdeclared hemit
  | formula hemit =>
      exact Emission.wellTyped_sites htyped hnone hsites fun hdeclared =>
        wellTyped_emitFormula hscope htyped hdeclared hemit
  | unary hop hwild hinner hemit ih =>
      obtain ⟨hbefore, hown⟩ := List.forall_mem_append.mp hsites
      obtain ⟨ha, hrules⟩ := ih hscope htyped hbefore
      exact Emission.wellTyped_sites htyped hrules hown fun hdeclared =>
        wellTyped_emitUnary hscope htyped hdeclared ha hemit
  | dropFirst hleft hright hinner hemit ih =>
      obtain ⟨hbefore, hown⟩ := List.forall_mem_append.mp hsites
      obtain ⟨hb, hrules⟩ := ih hscope htyped hbefore
      exact Emission.wellTyped_sites htyped hrules hown fun hdeclared =>
        wellTyped_emitDropFirst hb hdeclared hemit
  | dropLast hleft hright hinner hemit ih =>
      obtain ⟨hbefore, hown⟩ := List.forall_mem_append.mp hsites
      obtain ⟨ha, hrules⟩ := ih hscope htyped hbefore
      exact Emission.wellTyped_sites htyped hrules hown fun hdeclared =>
        wellTyped_emitDropLast ha hdeclared hemit
  | binary hleft hright hfirst hsecond hemit ihfirst ihsecond =>
      obtain ⟨hbefore, hown⟩ := List.forall_mem_append.mp hsites
      obtain ⟨hleftSites, hrightSites⟩ := List.forall_mem_append.mp hbefore
      obtain ⟨ha, hrules⟩ := ihfirst hscope htyped hleftSites
      obtain ⟨hb, hrules'⟩ := ihsecond hscope htyped hrightSites
      exact Emission.wellTyped_sites htyped (List.forall_mem_append.mpr ⟨hrules, hrules'⟩) hown
        fun hdeclared => wellTyped_emitBinary hscope htyped hdeclared ha hb hemit
  | @letIn scope name value body span names mid later a b sites sites' hfree hwild hvalue hbody
      ihvalue ihbody =>
      obtain ⟨hbefore, hafter⟩ := List.forall_mem_append.mp hsites
      obtain ⟨ha, hrules⟩ := ihvalue hscope htyped hbefore
      have hunbound := Scope.isBound_eq_false_iff.mp hfree
      have hinner := hscope.bind_relation hunbound (hvalue.wellScoped hscope).1
      obtain ⟨hb, hrules'⟩ := ihbody hinner (htyped.bind_relation name ha) hafter
      exact ⟨hb, List.forall_mem_append.mpr ⟨hrules, hrules'⟩⟩
  | comprehension hfree hwild hwild' hconstraint harity hbody hemit ihconstraint ihbody =>
      obtain ⟨hbefore, hown⟩ := List.forall_mem_append.mp hsites
      obtain ⟨hconstraintSites, hbodySites⟩ := List.forall_mem_append.mp hbefore
      obtain ⟨hnodup, -, hunbound⟩ := firstRebound?_eq_none hfree
      obtain ⟨hparams, -⟩ := hconstraint.wellScoped hscope
      obtain ⟨hc, hrules⟩ := ihconstraint hscope htyped hconstraintSites
      -- The body is typed where its variables have the types of the columns; outside, the typing
      -- is the one from before.
      obtain ⟨hb, hrules'⟩ := ihbody
        (wellScoped_comprehensionScope hscope hnodup hunbound harity hparams)
        (typed_comprehensionScope hscope htyped hc hparams hnodup hunbound harity) hbodySites
      exact Emission.wellTyped_sites htyped (List.forall_mem_append.mpr ⟨hrules, hrules'⟩) hown
        fun hdeclared => wellTyped_emitComprehension hc hb hdeclared
          (fun x hx => notMem_of_isScalar hunbound (hparams x hx)) hnodup harity hemit

end Compile

/-! ## Programs -/

namespace Assembly

variable {inputs : List (String × List ColumnType)} {e : Expr} {c : Compiled}
variable {sites : List Compile.Site} {program : Datalog.Program}

/-- The scope of the inputs has no scalars, so it is typed under every typing. -/
theorem typed_inputs (h : Assembly inputs scope e c sites decls program)
    (hinputs : Scope.ofInputs inputs = .ok scope) (τ : Typing) :
    scope.Typed program.decls τ := by
  have hnoScalar : ∀ {x s}, scope.lookup x ≠ some (.scalar s) := by
    intro x s hlookup
    obtain ⟨types, -, heq⟩ := (Scope.lookup_ofInputs hinputs).mp hlookup
    cases heq
  constructor
  · intro name p hlookup
    obtain ⟨types, hmem, heq⟩ := (Scope.lookup_ofInputs hinputs).mp hlookup
    cases heq
    obtain ⟨decl, hdecl, hdeclare⟩ := h.exists_decl_of_mem_inputs hmem
    refine ⟨decl, hdecl, Scope.relation_of_declare hdeclare, ?_⟩
    exact Scope.types_of_declare (fun hlookup => (hnoScalar hlookup).elim) hdeclare
  · intro x s hlookup
    exact (hnoScalar hlookup).elim
  · intro x s hlookup
    exact (hnoScalar hlookup).elim

/-- The predicates and the rules of a program are declared and well typed. -/
theorem wellTyped (h : Assembly inputs scope e c sites decls program)
    (hinputs : Scope.ofInputs inputs = .ok scope) (τ : Typing) :
    c.predicate.DeclaredIn program.decls τ ∧
      ∀ rule ∈ program.rules, ∃ τ, Rule.WellTyped program.decls τ rule := by
  obtain ⟨later, hderives⟩ := h.derives
  obtain ⟨hresult, hsites⟩ := hderives.wellTyped (Scope.wellScoped_ofInputs hinputs)
    (h.typed_inputs hinputs τ) fun site hsite => h.exists_decl_of_mem_sites hsite
  refine ⟨hresult, ?_⟩
  intro rule hrule
  rw [h.rules] at hrule
  obtain ⟨site, hsite, hrule⟩ := List.mem_flatMap.mp hrule
  exact hsites site hsite rule hrule

/-- Constraints of a compiled program hold no anonymous variable.  So its literals are satisfied
exactly where they hold in the model, except for raw text. -/
theorem satisfied_iff_holds (h : Assembly inputs scope e c sites decls program)
    (hinputs : Scope.ofInputs inputs = .ok scope) {rule : Datalog.Rule}
    (hrule : rule ∈ program.rules) (hraw : rule.RawFree) {l : Datalog.Literal} (hl : l ∈ rule.body)
    (ops : Datalog.Operations) (I : Datalog.Interpretation) (σ : Datalog.Assignment) :
    l.Satisfied ops.eval I σ ↔ l.Holds ops I σ := by
  obtain ⟨τ, htyped⟩ := (h.wellTyped hinputs fun _ => .number).2 rule hrule
  exact htyped.satisfied_iff_holds hraw hl

end Assembly

/-- A compiled expression can be assembled into a well-typed program: no relation is declared twice,
and for every rule there is a typing of its variables under which each atom has the arguments that
the declaration of its relation asks for, the sides of each constraint have one type, and aggregates
are numbers. -/
theorem assembled_rules_well_typed {inputs : List (String × List ColumnType)} {scope : Scope}
    {e : Expr} {options : Compile.Options} {c : Compiled}
    (hinputs : Scope.ofInputs inputs = .ok scope) (hcompile : e.compile scope options = .ok c) :
    ∃ program, c.assemble scope = .ok program ∧
      (program.decls.map (·.relation)).Nodup ∧
      ∀ rule ∈ program.rules, ∃ τ, rule.WellTyped program.decls τ := by
  obtain ⟨program, sites, decls, hassemble, hassembly⟩ := exists_assembly hinputs hcompile
  have hnodup := Datalog.Program.nodup_decls (hassembly.ordered hinputs)
  obtain ⟨-, hrules⟩ := hassembly.wellTyped hinputs fun _ => .number
  exact ⟨program, hassemble, hnodup, hrules⟩

theorem sample_rules_well_typed :
    ∃ c program, Scope.ofInputs Sample.inputs = .ok Sample.scope ∧
      Sample.query.compile Sample.scope ⟨true⟩ = .ok c ∧
      c.assemble Sample.scope = .ok program ∧
      (Sample.withoutOrder ∈ program.rules ∧ Sample.ordersOf ∈ program.decls ∧
        ∃ τ, Sample.withoutOrder.WellTyped program.decls τ) ∧
      (program.decls.map (·.relation)).Nodup ∧
      ∀ rule ∈ program.rules, ∃ τ, rule.WellTyped program.decls τ := by
  obtain ⟨c, program, hcompile, hassemble, hrule, hdecl⟩ := Sample.exists_assembled
  obtain ⟨program', hassemble', hnodup, hrules⟩ :=
    assembled_rules_well_typed Sample.scope_ofInputs hcompile
  obtain rfl : program = program' := Except.ok.inj (hassemble.symm.trans hassemble')
  exact ⟨c, program, Sample.scope_ofInputs, hcompile, hassemble,
    ⟨hrule, hdecl, hrules _ hrule⟩, hnodup, hrules⟩

end RelQuery
