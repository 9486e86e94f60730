import RelQuery.Proofs.Compile.Guarded
import RelQuery.Proofs.Compile.RuleTyping
import RelQuery.Proofs.Typing.Faults
import RelQuery.Query.Basic

/-!
# Compiling in reachable scopes

The scopes that occur while a query is compiled start with the inputs and grow by the bindings of
lets and comprehensions.  In all of them relations depend on scalars of the scope only, each named
once.  So no access leaves its list, no failure blames the scope, and the value of an expression
depends on scalars of its scope.  At the outermost scope there are none, and the relation that a
program writes has the columns of the query and no others.
-/

namespace RelQuery

namespace Compile

/-! ## Parameters are named once -/

/-- The relations of a scope name each of their parameters once. -/
def DistinctParams (scope : Scope) : Prop :=
  ∀ {name : String} {p : Predicate}, scope.lookup name = some (.relation p) → p.params.Nodup

variable {scope : Scope} {e : Expr} {names later : FreshNames}

theorem distinctParams_bind {p : Predicate} (h : DistinctParams scope) (hp : p.params.Nodup)
    (name : String) : DistinctParams (scope.bind name (.relation p)) := by
  intro other q hother
  rw [Scope.lookup_bind] at hother
  by_cases heq : other = name
  · rw [if_pos heq] at hother
    cases hother
    exact hp
  · rw [if_neg heq] at hother
    exact h hother

theorem distinctParams_comprehensionScope {c : Predicate} {scalars : List String}
    (hscope : scope.WellScoped) (h : DistinctParams scope)
    (hfree : firstRebound? scope [] scalars = none) (harity : c.arity = scalars.length) :
    DistinctParams (comprehensionScope scope c scalars) := by
  obtain ⟨hnodup, -, hunbound⟩ := firstRebound?_eq_none hfree
  intro name p hp
  rcases (lookup_comprehensionScope hscope hnodup hunbound harity).mp hp with hentry | houter
  · -- A comprehension binds scalars and no relations.
    obtain ⟨k, column, -, -, heq⟩ := mem_comprehensionEntries.mp hentry
    cases heq
  · exact h houter

/-- An expression depends on each scalar once. -/
theorem Derives.nodup_params {p : Predicate} {sites : List Site}
    (h : Derives scope e names p sites later) (hscope : scope.WellScoped)
    (hdistinct : DistinctParams scope) : p.params.Nodup := by
  induction h with
  | relation hlookup => exact hdistinct hlookup
  | scalar hlookup hemit =>
      obtain ⟨result, -, -, hparams, rfl⟩ := emitScalar_ok hemit
      change result.params.Nodup
      rw [hparams]
      exact nodup_mergeParams (List.nodup_singleton _) _
  | constant hemit =>
      obtain ⟨result, value, -, -, hparams, rfl⟩ := emitConstant_ok hemit
      change result.params.Nodup
      rw [hparams]
      exact List.nodup_nil
  | formula hemit =>
      obtain ⟨result, value, grounding, -, -, -, hparams, rfl⟩ := emitFormula_ok hemit
      change result.params.Nodup
      rw [hparams]
      exact hscope.nodup_scalarNames
  | @unary scope op inner span names mid later a sites em hop hwild hinner hemit ih =>
      rw [params_of_emitUnary hemit em.result_mem_definitions]
      exact ih hscope hdistinct
  | dropFirst hleft hright hinner hemit ih =>
      obtain ⟨result, vars, -, -, -, -, hparams, rfl⟩ := emitDropFirst_ok hemit
      change result.params.Nodup
      rw [hparams]
      exact ih hscope hdistinct
  | dropLast hleft hright hinner hemit ih =>
      obtain ⟨result, vars, -, -, -, -, hparams, rfl⟩ := emitDropLast_ok hemit
      change result.params.Nodup
      rw [hparams]
      exact ih hscope hdistinct
  | @binary scope op left right span names mid mid' later a b sites sites' em hleft hright hfirst
      hsecond hemit ihfirst ihsecond =>
      rw [params_of_emitBinary hemit em.result_mem_definitions]
      exact nodup_mergeParams (ihfirst hscope hdistinct) _
  | letIn hfree hwild hvalue hbody ihvalue ihbody =>
      have hunbound := Scope.isBound_eq_false_iff.mp hfree
      apply ihbody (hscope.bind_relation hunbound (hvalue.wellScoped hscope).1)
      exact distinctParams_bind hdistinct (ihvalue hscope hdistinct) _
  | comprehension hfree hwild hwild' hconstraint harity hbody hemit ihconstraint ihbody =>
      obtain ⟨hnodup, -, hunbound⟩ := firstRebound?_eq_none hfree
      have hinner := wellScoped_comprehensionScope hscope hnodup hunbound harity
        (hconstraint.wellScoped hscope).1
      have hbodyParams := ihbody hinner
        (distinctParams_comprehensionScope hscope hdistinct hfree harity)
      obtain ⟨result, vars, -, -, -, hparams, rfl⟩ := emitComprehension_ok hemit
      change result.params.Nodup
      rw [hparams]
      exact nodup_mergeParams (hbodyParams.filter _) _

/-! ## Reachable scopes -/

/-- The scopes that occur while expressions are compiled over some inputs. -/
inductive Reachable : Scope → Prop where
  | inputs {inputs : List (String × List ColumnType)} {scope : Scope}
      (hinputs : Scope.ofInputs inputs = .ok scope) : Reachable scope
  | letIn {options : Options} {scope : Scope} {name : String} {value : Expr}
      {names later : FreshNames} {a : Compiled} (hscope : Reachable scope)
      (hfree : scope.isBound name = false)
      (hvalue : compile options scope value names = .ok (a, later)) :
      Reachable (scope.bind name (.relation a.predicate))
  | comprehension {options : Options} {scope : Scope} {scalars : List String} {constraint : Expr}
      {names later : FreshNames} {c : Compiled} (hscope : Reachable scope)
      (hfree : firstRebound? scope [] scalars = none)
      (hconstraint : compile options scope constraint names = .ok (c, later))
      (harity : c.predicate.arity = scalars.length) :
      Reachable (comprehensionScope scope c.predicate scalars)

/-- In a scope whose relations depend on its scalars, so does what is compiled. -/
theorem params_of_compile {options : Options} {c : Compiled} (hscope : scope.WellScoped)
    (hdistinct : DistinctParams scope) (h : compile options scope e names = .ok (c, later)) :
    c.predicate.params.Nodup ∧ ∀ x ∈ c.predicate.params, scope.IsScalar x := by
  obtain ⟨sites, hderives, -⟩ := exists_derives_of_compile h
  exact ⟨hderives.nodup_params hscope hdistinct, (hderives.wellScoped hscope).1⟩

theorem Reachable.invariant (h : Reachable scope) : scope.WellScoped ∧ DistinctParams scope := by
  induction h with
  | inputs hinputs =>
      refine ⟨Scope.wellScoped_ofInputs hinputs, ?_⟩
      intro name p hp
      obtain ⟨types, -, heq⟩ := (Scope.lookup_ofInputs hinputs).mp hp
      cases heq
      exact List.nodup_nil
  | letIn hreached hfree hvalue ih =>
      obtain ⟨hscope, hdistinct⟩ := ih
      obtain ⟨hnodup, hscalars⟩ := params_of_compile hscope hdistinct hvalue
      have hunbound := Scope.isBound_eq_false_iff.mp hfree
      exact ⟨hscope.bind_relation hunbound hscalars, distinctParams_bind hdistinct hnodup _⟩
  | comprehension hreached hfree hconstraint harity ih =>
      obtain ⟨hscope, hdistinct⟩ := ih
      obtain ⟨-, hscalars⟩ := params_of_compile hscope hdistinct hconstraint
      obtain ⟨hnodup, -, hunbound⟩ := firstRebound?_eq_none hfree
      exact ⟨wellScoped_comprehensionScope hscope hnodup hunbound harity hscalars,
        distinctParams_comprehensionScope hscope hdistinct hfree harity⟩

/-- What every run of the compiler in a scope is like: all accesses are inside their lists, a
failure is a fault of the query, and a value depends on scalars of the scope, each named once. -/
structure RunsInScope (options : Options) (scope : Scope) (e : Expr) (names : FreshNames) :
    Prop where
  accesses : guardedCompile options scope e names = some (compile options scope e names)
  failure : ∀ {failure}, compile options scope e names = .error failure →
    failure.cause.isInternal = false
  distinct : ∀ {c later}, compile options scope e names = .ok (c, later) →
    c.predicate.params.Nodup
  scalars : ∀ {c later}, compile options scope e names = .ok (c, later) →
    ∀ x ∈ c.predicate.params, scope.IsScalar x

theorem Reachable.runsInScope (h : Reachable scope) (options : Options) (e : Expr)
    (names : FreshNames) : RunsInScope options scope e names := by
  obtain ⟨hscope, hdistinct⟩ := h.invariant
  constructor
  · exact mirrors_compile options scope e names
  · intro failure hfailed
    exact avoids_infer scope.context e failure ((compile_eq_error_iff hscope).mp hfailed)
  · intro c later hrun
    exact (params_of_compile hscope hdistinct hrun).1
  · intro c later hrun
    exact (params_of_compile hscope hdistinct hrun).2

end Compile

/-! ## The columns of the answer -/

/-- A program writes a relation that it declares once, with attributes of the given types. -/
def Datalog.Program.Writes (program : Datalog.Program) (relation : String)
    (types : List ColumnType) : Prop :=
  .output relation ∈ program.flatten ∧
    ∃ decl, program.decls.filter (·.relation == relation) = [decl] ∧
      decl.attributes.map (·.type) = types

theorem Datalog.filter_decls_eq_singleton {decls : List Datalog.Decl} {decl : Datalog.Decl}
    (hnodup : (decls.map (·.relation)).Nodup) (hdecl : decl ∈ decls) :
    decls.filter (·.relation == decl.relation) = [decl] := by
  induction decls with
  | nil => cases hdecl
  | cons first rest ih =>
      rw [List.map_cons, List.nodup_cons] at hnodup
      rcases List.mem_cons.mp hdecl with rfl | hrest
      · have hnone : rest.filter (·.relation == decl.relation) = [] := by
          apply List.filter_eq_nil_iff.mpr
          intro other hother heq
          exact hnodup.1 (List.mem_map.mpr ⟨other, hother, by simpa using heq⟩)
        rw [List.filter_cons_of_pos (by simp), hnone]
      · have hne : (first.relation == decl.relation) = false := by
          rw [beq_eq_false_iff_ne]
          intro heq
          exact hnodup.1 (List.mem_map.mpr ⟨decl, hrest, heq.symm⟩)
        rw [List.filter_cons_of_neg (by simp [hne]), ih hnodup.2 hrest]

section Programs

variable {inputs : List (String × List ColumnType)} {scope : Scope} {e : Expr}
variable {options : Compile.Options} {c : Compiled}

/-- Over inputs there are no scalars on which a query could depend. -/
theorem params_eq_nil_of_compile (hinputs : Scope.ofInputs inputs = .ok scope)
    (hcompile : e.compile scope options = .ok c) : c.predicate.params = [] := by
  obtain ⟨later, hrun⟩ := Expr.compile_eq_ok.mp hcompile
  have hreached : Compile.Reachable scope := .inputs hinputs
  apply List.eq_nil_iff_forall_not_mem.mpr
  intro x hx
  obtain ⟨s, hs⟩ := (hreached.runsInScope options e _).scalars hrun x hx
  obtain ⟨types, -, heq⟩ := (Scope.lookup_ofInputs hinputs).mp hs
  cases heq

theorem writes_of_compile (hinputs : Scope.ofInputs inputs = .ok scope)
    (hcompile : e.compile scope options = .ok c) :
    ∃ program, c.assemble scope = .ok program ∧
      program.Writes c.predicate.name c.predicate.types := by
  obtain ⟨program, sites, decls, hassemble, hassembly⟩ := exists_assembly hinputs hcompile
  have hnodup := Datalog.Program.nodup_decls (hassembly.ordered hinputs)
  obtain ⟨⟨decl, hdecl, hname, htypes⟩, -⟩ := hassembly.wellTyped hinputs fun _ => .number
  rw [params_eq_nil_of_compile hinputs hcompile, List.map_nil, List.append_nil] at htypes
  refine ⟨program, hassemble, ?_, decl, ?_, htypes⟩
  · rw [hassembly.flatten]
    simp
  · rw [← hname]
    exact Datalog.filter_decls_eq_singleton hnodup hdecl

theorem mapError_eq_ok {ε δ α : Type} {m : Except ε α} {f : ε → δ} {x : α} :
    m.mapError f = .ok x ↔ m = .ok x := by
  cases m <;> simp [Except.mapError]

theorem Query.checkNames_eq_ok {names : List String} {u : Unit} :
    Query.checkNames names = .ok u ↔ ∀ name ∈ names, isInputName name = true := by
  unfold Query.checkNames
  split
  · next name hfind =>
      have hbad := List.find?_some hfind
      simp only [reduceCtorEq, false_iff, not_forall]
      exact ⟨name, List.mem_of_find?_eq_some hfind, by simpa using hbad⟩
  · next hfind => simpa using hfind

/-- A query is prepared exactly if its inputs have names, its text can be read and the expression
can be compiled and assembled. -/
theorem Query.prepare_eq_ok_iff {source : String} {relations : Relations} {query : PreparedQuery} :
    Query.prepare source relations options = .ok query ↔
      ∃ (e : Expr) (scope : Scope) (c : Compiled) (program : Datalog.Program),
        (∀ name ∈ relations.names, isInputName name = true) ∧ Expr.parse source = .ok e ∧
        Scope.ofInputs (relations.entries.map fun entry => (entry.1, entry.2.types)) = .ok scope ∧
        e.compile scope options = .ok c ∧ c.assemble scope = .ok program ∧
        query = ⟨program.render, c.predicate⟩ := by
  simp only [Query.prepare, except_bind_eq_ok, except_pure_eq_ok, mapError_eq_ok,
    Query.checkNames_eq_ok]
  constructor
  · rintro ⟨_, hnames, e, hparse, scope, hscope, c, hcompile, program, hassemble, rfl⟩
    exact ⟨e, scope, c, program, hnames, hparse, hscope, hcompile, hassemble, rfl⟩
  · rintro ⟨e, scope, c, program, hnames, hparse, hscope, hcompile, hassemble, rfl⟩
    exact ⟨(), hnames, e, hparse, scope, hscope, c, hcompile, program, hassemble, rfl⟩

theorem Query.prepare_eq_ok {source : String} {relations : Relations} {query : PreparedQuery}
    (h : Query.prepare source relations options = .ok query) :
    ∃ (e : Expr) (scope : Scope) (c : Compiled) (program : Datalog.Program),
      Scope.ofInputs (relations.entries.map fun entry => (entry.1, entry.2.types)) = .ok scope ∧
      e.compile scope options = .ok c ∧ c.assemble scope = .ok program ∧
      query = ⟨program.render, c.predicate⟩ := by
  obtain ⟨e, scope, c, program, -, -, hrun⟩ := Query.prepare_eq_ok_iff.mp h
  exact ⟨e, scope, c, program, hrun⟩

end Programs

/-- In every reachable scope the compiler stays inside its lists, never blames the scope and gives
relations that depend on scalars of the scope, each named once.  Over inputs nothing depends on a
scalar, so the relation that a program writes has the types of the query. -/
theorem compiled_scalars_in_scope :
    (∀ scope, Compile.Reachable scope →
      ∀ options e names, Compile.RunsInScope options scope e names) ∧
    (∀ inputs scope, Scope.ofInputs inputs = .ok scope →
      ∀ (e : Expr) (options : Compile.Options) (c : Compiled), e.compile scope options = .ok c →
        c.predicate.params = [] ∧ ∃ program, c.assemble scope = .ok program ∧
          program.Writes c.predicate.name c.predicate.types) ∧
    ∀ source relations options query, Query.prepare source relations options = .ok query →
      query.result.params = [] ∧ ∃ program : Datalog.Program, query.program = program.render ∧
        program.Writes query.result.name query.resultTypes := by
  refine ⟨?_, ?_, ?_⟩
  · intro scope hreached options e names
    exact hreached.runsInScope options e names
  · intro inputs scope hinputs e options c hcompile
    exact ⟨params_eq_nil_of_compile hinputs hcompile, writes_of_compile hinputs hcompile⟩
  · intro source relations options query hquery
    obtain ⟨e, scope, c, program, hinputs, hcompile, hassemble, rfl⟩ :=
      Query.prepare_eq_ok hquery
    obtain ⟨written, hwritten, hwrites⟩ := writes_of_compile hinputs hcompile
    obtain rfl : program = written := Except.ok.inj (hassemble.symm.trans hwritten)
    exact ⟨params_eq_nil_of_compile hinputs hcompile, program, rfl, hwrites⟩

namespace Sample

/-- The scope of the condition of the sample, with the person `x`. -/
def innerScope : Scope :=
  Compile.comprehensionScope scope (Scope.inputPredicate "person" [.symbol]) ["x"]

theorem reachable_innerScope : Compile.Reachable innerScope := by
  have hconstraint : Compile.compile ⟨true⟩ scope (.name "person" .synthetic) (.inScope scope) =
      .ok (⟨Scope.inputPredicate "person" [.symbol], ⟨[]⟩⟩, .inScope scope) := rfl
  exact .comprehension (.inputs scope_ofInputs) rfl hconstraint rfl

/-- The orders of `x`, a part of the sample. -/
def orders : Expr :=
  .binary .join (.name "x" .synthetic) (.name "R2" .synthetic) .synthetic

theorem exists_compiled_orders :
    ∃ c later, Compile.compile ⟨true⟩ innerScope orders (.inScope scope) = .ok (c, later) ∧
      c.predicate.params = ["x"] :=
  ⟨_, _, rfl, rfl⟩

end Sample

/-- The orders of `x` depend on `x`, and the whole sample depends on nothing. -/
theorem sample_scalars_in_scope :
    ∃ c later c' program,
      Compile.Reachable Sample.innerScope ∧
      Compile.compile ⟨true⟩ Sample.innerScope Sample.orders (.inScope Sample.scope) =
        .ok (c, later) ∧
      c.predicate.params = ["x"] ∧ (∀ x ∈ c.predicate.params, Sample.innerScope.IsScalar x) ∧
      Sample.query.compile Sample.scope ⟨true⟩ = .ok c' ∧ c'.predicate.params = [] ∧
      c'.assemble Sample.scope = .ok program ∧
      program.Writes c'.predicate.name c'.predicate.types := by
  obtain ⟨hruns, hwrites, -⟩ := compiled_scalars_in_scope
  obtain ⟨c, later, horders, hparams⟩ := Sample.exists_compiled_orders
  obtain ⟨c', hcompile⟩ := Sample.exists_compiled ⟨true⟩
  obtain ⟨hnone, program, hassemble, hprogram⟩ :=
    hwrites _ _ Sample.scope_ofInputs _ _ _ hcompile
  have hscalars := (hruns _ Sample.reachable_innerScope _ _ _).scalars horders
  exact ⟨c, later, c', program, Sample.reachable_innerScope, horders, hparams, hscalars, hcompile,
    hnone, hassemble, hprogram⟩

end RelQuery
