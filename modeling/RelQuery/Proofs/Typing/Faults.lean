import RelQuery.Proofs.Typing.Compiler
import RelQuery.Proofs.Typing.Inference

/-!
# The compiler reports the first fault

In a well-scoped scope the compiler gives the column types that `infer` gives in the context of the
scope, or it fails with the same failure.  The checks of an emission are those of the operator on
column types, and neither grounding nor a declaration can fail.
-/

namespace RelQuery

/-! ## Checks that pass -/

theorem typing_of_checkLast {subject column : String} {expected : ColumnType}
    {types : List ColumnType} (h : checkLast subject column expected types = .ok ()) :
    ∃ init, types = init ++ [expected] := by
  unfold checkLast at h
  split at h
  · cases h
  · rename_i last hlast
    have htype : last = expected := by
      simpa [Compile.ensureType, Compile.ensure_eq_ok] using h
    rw [htype] at hlast
    exact List.getLast?_eq_some_iff.mp hlast

theorem typing_of_checkColumn {subject : String} {types : List ColumnType}
    (h : checkColumn subject types = .ok ()) : ∃ first rest, types = first :: rest := by
  cases types with
  | nil => cases h
  | cons first rest => exact ⟨first, rest, rfl⟩

/-- An operator accepts the columns that pass its check. -/
theorem UnaryOp.typing_of_check {op : UnaryOp} {types : List ColumnType}
    (h : op.check types = .ok ()) : UnaryTyping op types (op.resultTypes types) := by
  cases op with
  | quantify quantifier => exact .quantify quantifier types
  | count => exact .count types
  | closure =>
      simp only [UnaryOp.check] at h
      split at h
      · rename_i source target
        have htype : target = source := by
          simpa [Compile.ensureType, Compile.ensure_eq_ok] using h
        rw [htype]
        exact .closure source
      · cases h
  | reflexiveClosure => cases h
  | transpose =>
      have hlength : types.length = 2 := by
        simpa [UnaryOp.check, Compile.ensure_eq_ok] using h
      obtain ⟨source, target, rfl⟩ := List.length_eq_two.mp hlength
      exact .transpose source target
  | aggregate function =>
      obtain ⟨init, rfl⟩ := typing_of_checkLast h
      exact .aggregate function init
  | wildcardApply =>
      obtain ⟨first, rest, rfl⟩ := typing_of_checkColumn h
      exact .wildcardApply first rest
  | index =>
      obtain ⟨first, rest, rfl⟩ := typing_of_checkColumn h
      exact .index first rest
  | concat =>
      obtain ⟨init, rfl⟩ := typing_of_checkLast h
      exact .concat init

theorem checkScalars_eq_ok {test : ColumnType → ColumnType → Except Cause Unit}
    {left right : List ColumnType} (h : checkScalars test left right = .ok ()) :
    ∃ first second, left = [first] ∧ right = [second] ∧ test first second = .ok () := by
  unfold checkScalars at h
  split at h
  · rename_i first second
    exact ⟨first, second, rfl, rfl, h⟩
  · cases h
  · cases h

/-- An operator accepts the columns that pass its check. -/
theorem BinaryOp.typing_of_check {op : BinaryOp} {left right : List ColumnType}
    (h : op.check left right = .ok ()) : BinaryTyping op left right (op.resultTypes left right) := by
  cases op with
  | join =>
      simp only [BinaryOp.check] at h
      split at h
      · cases h
      · cases h
      · rename_i last first hlast hfirst
        have htype : first = last := by
          simpa [Compile.ensureType, Compile.ensure_eq_ok] using h
        obtain ⟨init, rfl⟩ := List.getLast?_eq_some_iff.mp hlast
        obtain ⟨rest, rfl⟩ := List.head?_eq_some_iff.mp hfirst
        rw [htype, resultTypes, List.dropLast_concat, List.tail_cons]
        exact .join init rest last
  | compare comparison =>
      obtain ⟨first, second, rfl, rfl, htest⟩ := checkScalars_eq_ok h
      simp only [except_bind_eq_ok, Compile.ensureType, Compile.ensure_eq_ok, beq_iff_eq] at htest
      obtain ⟨-, rfl, hordering⟩ := htest
      cases hkind : comparison.isOrdering with
      | false => exact .equality hkind second
      | true =>
          have hnumber : second = .number := by simpa [hkind] using hordering
          rw [hnumber]
          exact .ordering hkind
  | set operation =>
      have hequal : left = right := by
        simpa [BinaryOp.check, Compile.ensure_eq_ok] using h
      rw [hequal]
      exact .set operation right
  | product => exact .product left right
  | apply =>
      simp only [BinaryOp.check, Compile.ensure_eq_ok, List.isPrefixOf_iff_prefix] at h
      obtain ⟨rest, rfl⟩ := h
      rw [resultTypes, List.drop_left]
      exact .apply right rest
  | domainRestrict =>
      simp only [BinaryOp.check, Compile.ensure_eq_ok, List.isPrefixOf_iff_prefix] at h
      obtain ⟨rest, rfl⟩ := h
      exact .domainRestrict left rest
  | rangeRestrict =>
      simp only [BinaryOp.check, Compile.ensure_eq_ok, List.isSuffixOf_iff_suffix] at h
      obtain ⟨init, rfl⟩ := h
      exact .rangeRestrict init right
  | arith operation =>
      obtain ⟨first, second, rfl, rfl, htest⟩ := checkScalars_eq_ok h
      simp only [except_bind_eq_ok, Compile.ensureType, Compile.ensure_eq_ok, beq_iff_eq] at htest
      obtain ⟨-, rfl, rfl⟩ := htest
      exact .arith operation

/-! ## Checks that fail -/

namespace Compile

open Datalog (Command)

variable {options : Options} {scope : Scope} {names mid later : FreshNames} {a b : Predicate}
variable {em : Emission} {cause : Cause}

theorem ensureColumn_eq_checkColumn (subject : String) (p : Predicate) :
    ensureColumn subject p = checkColumn subject p.types := by
  rw [ensureColumn, checkColumn, p.length_types]

/-- An operand that fails the check of its operator has no emission. -/
theorem emitUnary_of_check_error {op : UnaryOp} (h : op.check a.types = .error cause) :
    emitUnary op a scope names = .error cause := by
  cases op with
  | quantify quantifier => cases h
  | count => cases h
  | closure =>
      simp only [UnaryOp.check] at h
      split at h
      · rename_i source target htypes
        have harity : ensureArity "Transitive closure" 2 a = .ok () := by
          rw [ensureArity, ← a.length_types, htypes]
          rfl
        simp only [emitUnary, emitClosure, htypes]
        rw [bind_of_ok (lift_of_ok harity _)]
        exact bind_of_error (lift_of_error h _)
      · rename_i hother
        have harity : ensureArity "Transitive closure" 2 a = .error cause := by
          rw [← h, ensureArity, ensure, a.length_types, if_neg]
          intro heq
          obtain ⟨source, target, htypes⟩ :=
            List.length_eq_two.mp (a.length_types.trans (beq_iff_eq.mp heq))
          exact hother source target htypes
        simp only [emitUnary, emitClosure]
        exact bind_of_error (lift_of_error harity _)
  | reflexiveClosure =>
      cases h
      rfl
  | transpose =>
      rw [UnaryOp.check, a.length_types] at h
      exact bind_of_error (lift_of_error h _)
  | aggregate function =>
      simp only [UnaryOp.check, checkLast] at h
      simp only [emitUnary, emitAggregate, Predicate.lastType?]
      split at h
      · rename_i hlast
        cases h
        rw [hlast]
        rfl
      · rename_i last hlast
        rw [hlast]
        exact bind_of_error (lift_of_error h _)
  | wildcardApply =>
      rw [UnaryOp.check, ← ensureColumn_eq_checkColumn] at h
      exact bind_of_error (lift_of_error h _)
  | index =>
      rw [UnaryOp.check, ← ensureColumn_eq_checkColumn] at h
      exact bind_of_error (bind_of_error (lift_of_error h _))
  | concat =>
      simp only [UnaryOp.check, checkLast] at h
      simp only [emitUnary, emitConcat, Predicate.lastType?]
      split at h
      · rename_i hlast
        cases h
        rw [hlast]
        rfl
      · rename_i last hlast
        rw [hlast]
        exact bind_of_error (lift_of_error h _)

theorem checkScalars_eq_bind (test : ColumnType → ColumnType → Except Cause Unit)
    (a b : Predicate) :
    checkScalars test a.types b.types = (do
      let types ← scalarTypes a b
      test types.1 types.2) := by
  unfold checkScalars scalarTypes scalarType
  rw [a.length_types, b.length_types]
  cases a.types with
  | nil => rfl
  | cons first rest =>
      cases rest with
      | cons second rest => rfl
      | nil =>
          cases b.types with
          | nil => rfl
          | cons first' rest' => cases rest' <;> rfl

/-- Operands that fail the check of their operator have no emission. -/
theorem emitBinary_of_check_error {op : BinaryOp} (h : op.check a.types b.types = .error cause) :
    emitBinary op a b scope names = .error cause := by
  cases op with
  | join =>
      simp only [BinaryOp.check] at h
      split at h
      · rename_i hlast
        have hcolumn : ensureColumn "Left-hand side of dot-join" a = .error cause := by
          rw [ensureColumn_eq_checkColumn, List.getLast?_eq_none_iff.mp hlast, ← h]
          rfl
        exact bind_of_error (lift_of_error hcolumn _)
      · rename_i last hlast hfirst
        have hcolumn : ensureColumn "Left-hand side of dot-join" a = .ok () :=
          ensure_eq_ok.mpr (bne_iff_ne.mpr (Predicate.arity_ne_zero_of_lastType hlast))
        have hcolumn' : ensureColumn "Right-hand side of dot-join" b = .error cause := by
          rw [ensureColumn_eq_checkColumn, List.head?_eq_none_iff.mp hfirst, ← h]
          rfl
        simp only [emitBinary, emitJoin]
        rw [bind_of_ok (lift_of_ok hcolumn _)]
        exact bind_of_error (lift_of_error hcolumn' _)
      · rename_i last first hlast hfirst
        have hcolumn : ensureColumn "Left-hand side of dot-join" a = .ok () :=
          ensure_eq_ok.mpr (bne_iff_ne.mpr (Predicate.arity_ne_zero_of_lastType hlast))
        have hcolumn' : ensureColumn "Right-hand side of dot-join" b = .ok () :=
          ensure_eq_ok.mpr (bne_iff_ne.mpr (Predicate.arity_ne_zero_of_firstType hfirst))
        simp only [emitBinary, emitJoin, Predicate.lastType?, Predicate.firstType?, hlast, hfirst]
        rw [bind_of_ok (lift_of_ok hcolumn _), bind_of_ok (lift_of_ok hcolumn' _)]
        exact bind_of_error (lift_of_error h _)
  | compare comparison =>
      rw [BinaryOp.check, checkScalars_eq_bind, except_bind_eq_error] at h
      rcases h with hscalars | ⟨⟨left, right⟩, hscalars, htest⟩
      · exact bind_of_error (lift_of_error hscalars _)
      · simp only [emitBinary, emitComparison]
        rw [bind_of_ok (lift_of_ok hscalars _)]
        rcases except_bind_eq_error.mp htest with hequal | ⟨_, hequal, hordering⟩
        · exact bind_of_error (lift_of_error hequal _)
        · rw [bind_of_ok (lift_of_ok hequal _)]
          exact bind_of_error (lift_of_error hordering _)
  | set operation => exact bind_of_error (lift_of_error h _)
  | product => cases h
  | apply => exact bind_of_error (lift_of_error h _)
  | domainRestrict => exact bind_of_error (lift_of_error h _)
  | rangeRestrict => exact bind_of_error (lift_of_error h _)
  | arith operation =>
      rw [BinaryOp.check, checkScalars_eq_bind, except_bind_eq_error] at h
      rcases h with hscalars | ⟨⟨left, right⟩, hscalars, htest⟩
      · exact bind_of_error (lift_of_error hscalars _)
      · simp only [emitBinary, emitArithmetic]
        rw [bind_of_ok (lift_of_ok hscalars _)]
        rcases except_bind_eq_error.mp htest with hleft | ⟨_, hleft, hright⟩
        · exact bind_of_error (lift_of_error hleft _)
        · rw [bind_of_ok (lift_of_ok hleft _)]
          exact bind_of_error (lift_of_error hright _)

/-! ## Column types of a run -/

/-- The column types that an emission gives, or its fault. -/
def emittedTypes (emit : Emit Emission) (names : FreshNames) : Except Cause (List ColumnType) :=
  (emit names).map fun r => r.1.result.predicate.types

/-- The column types of a compiled expression, or its failure. -/
def compiledTypes (m : CompileM Compiled) (names : FreshNames) :
    Except CompileError (List ColumnType) :=
  (m names).map fun r => r.1.predicate.types

theorem emittedTypes_emitUnary {op : UnaryOp} (hparams : ∀ x ∈ a.params, scope.IsScalar x) :
    emittedTypes (emitUnary op a scope) names = (do
      op.check a.types
      return op.resultTypes a.types) := by
  unfold emittedTypes
  cases hcheck : op.check a.types with
  | error cause =>
      rw [emitUnary_of_check_error hcheck]
      rfl
  | ok u =>
      obtain ⟨em, later, hemit⟩ := exists_emitUnary (UnaryOp.typing_of_check hcheck) hparams names
      rw [hemit, ← (unaryTyping_of_emit hemit).result_eq]
      rfl

theorem emittedTypes_emitBinary {op : BinaryOp} (ha : ∀ x ∈ a.params, scope.IsScalar x)
    (hb : ∀ x ∈ b.params, scope.IsScalar x) :
    emittedTypes (emitBinary op a b scope) names = (do
      op.check a.types b.types
      return op.resultTypes a.types b.types) := by
  unfold emittedTypes
  cases hcheck : op.check a.types b.types with
  | error cause =>
      rw [emitBinary_of_check_error hcheck]
      rfl
  | ok u =>
      obtain ⟨em, later, hemit⟩ :=
        exists_emitBinary (BinaryOp.typing_of_check hcheck) ha hb names
      rw [hemit, ← (binaryTyping_of_emit hemit).result_eq]
      rfl

theorem emittedTypes_emitDropLast :
    emittedTypes (emitDropLast a) names = (do
      checkColumn "Left-hand side of dot-join" a.types
      return a.types.dropLast) := by
  unfold emittedTypes
  cases hcheck : checkColumn "Left-hand side of dot-join" a.types with
  | error cause =>
      rw [← ensureColumn_eq_checkColumn] at hcheck
      have hemit : emitDropLast a names = .error cause := bind_of_error (lift_of_error hcheck _)
      rw [hemit]
      rfl
  | ok u =>
      have hcolumn : a.arity ≠ 0 := by
        simpa [checkColumn, ensure_eq_ok] using hcheck
      obtain ⟨last, hlast⟩ := Predicate.exists_lastType hcolumn
      obtain ⟨init, hinit⟩ := Predicate.types_of_lastType hlast
      obtain ⟨em, later, hemit⟩ := exists_emitDropLast hinit names
      obtain ⟨last', htypes⟩ := types_emitDropLast hemit
      rw [hemit, htypes, List.dropLast_concat]
      rfl

theorem emittedTypes_emitComprehension {style : Style} {scalars : List String} {c : Predicate}
    (harity : c.arity = scalars.length) :
    emittedTypes (emitComprehension style scalars c b) names =
      .ok (style.types c.types b.types) := by
  have hemit : ∃ em later, emitComprehension style scalars c b names = .ok (em, later) :=
    ⟨_, _, rfl⟩
  obtain ⟨em, later, hemit⟩ := hemit
  rw [emittedTypes, hemit, ← types_emitComprehension harity hemit]
  rfl

/-! ## The compiler and the inference -/

variable {e : Expr}

theorem located_eq (e : Expr) (scope : Scope) :
    CompileError.located e scope = scope.context.located e := by
  funext cause
  simp [CompileError.located, Context.located, Scope.snapshot, Scope.bindings, Scope.context]

theorem compiledTypes_throw (e : Expr) (scope : Scope) (cause : Cause) :
    compiledTypes (throw (.located e scope cause)) names =
      .error (scope.context.located e cause) := by
  rw [← located_eq]
  rfl

/-- What a node defines in a well-scoped scope is well scoped, so the node fails only if its
emission does. -/
theorem compiledTypes_define (hscope : scope.WellScoped) {before : List Command}
    {emit : Emit Emission}
    (hderives : ∀ {em later}, emit names = .ok (em, later) → ∃ start sites,
      Derives scope e start em.result.predicate (sites ++ em.sites e scope) later) :
    compiledTypes (define options e scope before emit) names =
      (emittedTypes emit names).mapError (scope.context.located e) := by
  unfold compiledTypes emittedTypes
  cases hemit : emit names with
  | error cause =>
      have hdefine : define options e scope before emit names =
          .error (CompileError.located e scope cause) := by
        unfold define locate
        rw [bind_of_error hemit]
        rfl
      rw [hdefine, located_eq]
      rfl
  | ok result =>
      obtain ⟨em, later⟩ := result
      obtain ⟨start, sites, hderives⟩ := hderives hemit
      obtain ⟨-, hown⟩ := List.forall_mem_append.mp (hderives.wellScoped hscope).2
      obtain ⟨block, hblock⟩ := exists_siteCommands hown options
      rw [define_eq_ok.mpr ⟨em, block, hemit, hblock, rfl⟩]
      rfl

/-- A node that checks the columns of its operands and gives columns of its own. -/
theorem compiledTypes_checked (hscope : scope.WellScoped) {before : List Command}
    {emit : Emit Emission} {check : Except Cause Unit} {types : List ColumnType}
    (hderives : ∀ {em later}, emit names = .ok (em, later) → ∃ start sites,
      Derives scope e start em.result.predicate (sites ++ em.sites e scope) later)
    (hemit : emittedTypes emit names = (do check; return types)) :
    compiledTypes (define options e scope before emit) names = (do
      scope.context.ensure e check
      return types) := by
  rw [compiledTypes_define hscope hderives, hemit]
  cases check <;> rfl

/-- In every well-scoped scope the compiler gives the types that the inference gives, or the failure
that the inference reports. -/
def Infers (options : Options) (e : Expr) : Prop :=
  ∀ {scope : Scope} (names : FreshNames), scope.WellScoped →
    compiledTypes (compile options scope e) names = infer scope.context e

/-- A part is compiled before the rest of its node. -/
theorem Infers.bind (he : Infers options e) (hscope : scope.WellScoped)
    {next : Compiled → CompileM Compiled}
    {rest : List ColumnType → Except CompileError (List ColumnType)}
    (hnext : ∀ {a mid sites}, Derives scope e names a.predicate sites mid →
      compiledTypes (next a) mid = rest a.predicate.types) :
    compiledTypes (compile options scope e >>= next) names = infer scope.context e >>= rest := by
  rw [← he names hscope]
  unfold compiledTypes
  cases hrun : compile options scope e names with
  | error failure =>
      rw [bind_of_error hrun]
      rfl
  | ok result =>
      obtain ⟨a, mid⟩ := result
      obtain ⟨sites, hderives, -⟩ := exists_derives_of_compile hrun
      rw [bind_of_ok hrun]
      exact hnext hderives

/-- An operand is a part that is not a wildcard. -/
theorem Infers.operand (he : Infers options e) (hscope : scope.WellScoped)
    {next : Compiled → CompileM Compiled}
    {rest : List ColumnType → Except CompileError (List ColumnType)}
    (hnext : ∀ {a mid sites}, e.isWildcard = false →
      Derives scope e names a.predicate sites mid →
      compiledTypes (next a) mid = rest a.predicate.types) :
    compiledTypes (operand e scope (compile options scope e) >>= next) names =
      scope.context.operand e (infer scope.context e) >>= rest := by
  unfold Compile.operand Context.operand
  cases hwild : e.isWildcard with
  | true =>
      rw [← located_eq]
      rfl
  | false => exact he.bind hscope (hnext hwild)

theorem firstRebound?_eq (scope : Scope) (seen scalars : List String) :
    firstRebound? scope seen scalars = scope.context.firstRebound? seen scalars := by
  induction scalars generalizing seen with
  | nil => rfl
  | cons name rest ih =>
      rw [firstRebound?, Context.firstRebound?, ih, Scope.lookup_context, Option.isSome_map]
      rfl

/-- The binders of a comprehension are checked against the columns of its constraint. -/
theorem compiledTypes_ensureVariables {scalars : List String}
    {next : Unit → CompileM Compiled} {rest : Except CompileError (List ColumnType)}
    (hnext : a.arity = scalars.length → compiledTypes (next ()) names = rest) :
    compiledTypes (locate e scope (ensureVariables scalars a) >>= next) names = (do
      scope.context.ensure e (checkVariables scalars a.types)
      rest) := by
  have hcheck : ensureVariables scalars a = checkVariables scalars a.types := by
    rw [ensureVariables, ensureArity, checkVariables, a.length_types]
  cases hvariables : ensureVariables scalars a with
  | error cause =>
      rw [← hcheck, hvariables, Context.ensure, ← located_eq]
      rfl
  | ok u =>
      rw [← hcheck, hvariables, ← hnext (ensureVariables_eq_ok.mp hvariables)]
      rfl

/-! ### Nodes -/

theorem infers_constant (value : Constant) (span : Span) :
    Infers options (.constant value span) := by
  intro scope names hscope
  have hemit : emittedTypes (emitConstant value) names = .ok [value.type] := by
    cases value <;> rfl
  rw [compile, compiledTypes_define hscope fun hemit => ⟨_, [], .constant hemit⟩, hemit]
  rfl

theorem infers_name (name : String) (span : Span) : Infers options (.name name span) := by
  intro scope names hscope
  simp only [compile, infer, Scope.lookup_context]
  cases hlookup : scope.lookup name with
  | none => exact compiledTypes_throw _ scope _
  | some binding =>
      cases binding with
      | relation p => rfl
      | scalar binding =>
          exact compiledTypes_define hscope fun hemit => ⟨_, [], .scalar hlookup hemit⟩

theorem infers_formula (text : String) (span : Span) : Infers options (.formula text span) := by
  intro scope names hscope
  obtain ⟨em, later, hemit⟩ := exists_emitFormula hscope text names
  have htypes : emittedTypes (emitFormula text scope) names = .ok [.number] := by
    rw [emittedTypes, hemit, ← types_emitFormula hemit]
    rfl
  rw [compile, compiledTypes_define hscope fun hemit => ⟨_, [], .formula hemit⟩, htypes]
  rfl

theorem infers_unary {inner : Expr} (hinner : Infers options inner) (op : UnaryOp) (span : Span) :
    Infers options (.unary op inner span) := by
  intro scope names hscope
  by_cases hop : op = .reflexiveClosure
  · subst hop
    exact compiledTypes_throw _ scope _
  · rw [compile_unary hop, infer_unary hop]
    apply hinner.operand hscope
    intro a mid sites hwild hderives
    apply compiledTypes_checked hscope fun hemit => ⟨_, _, .unary hop hwild hderives hemit⟩
    exact emittedTypes_emitUnary (hderives.wellScoped hscope).1

theorem infers_binary {left right : Expr} (hleft : Infers options left)
    (hright : Infers options right) (op : BinaryOp) (span : Span) :
    Infers options (.binary op left right span) := by
  intro scope names hscope
  cases binaryForm op left right with
  | dropFirst hwild hwild' =>
      rw [compile_dropFirst hwild hwild', infer_dropFirst hwild hwild']
      apply hright.operand hscope
      intro b mid sites _ hderives
      apply compiledTypes_checked hscope fun hemit => ⟨_, _, .dropFirst hwild hwild' hderives hemit⟩
      have hemit : emittedTypes (emitUnary .wildcardApply b.predicate scope) mid = _ :=
        emittedTypes_emitUnary (hderives.wellScoped hscope).1
      exact hemit
  | dropLast hwild hwild' =>
      rw [compile_dropLast hwild hwild', infer_dropLast hwild hwild']
      apply hleft.operand hscope
      intro a mid sites _ hderives
      apply compiledTypes_checked hscope fun hemit => ⟨_, _, .dropLast hwild hwild' hderives hemit⟩
      exact emittedTypes_emitDropLast
  | wildcards hwild hwild' =>
      simp only [compile_wildcardJoin hwild hwild', infer, hwild, hwild']
      exact compiledTypes_throw _ scope _
  | operands hop =>
      rw [compile_binary hop, infer_binary hop]
      apply hleft.operand hscope
      intro a mid sites hwild hfirst
      apply hright.operand hscope
      intro b mid' sites' hwild' hsecond
      apply compiledTypes_checked hscope
        fun hemit => ⟨_, _, .binary hwild hwild' hfirst hsecond hemit⟩
      exact emittedTypes_emitBinary (hfirst.wellScoped hscope).1 (hsecond.wellScoped hscope).1

theorem infers_comprehension {constraint body : Expr} (hconstraint : Infers options constraint)
    (hbody : Infers options body) (style : Style) (scalars : List String) (span : Span) :
    Infers options (.comprehension style scalars constraint body span) := by
  intro scope names hscope
  simp only [infer, ← firstRebound?_eq]
  cases hfree : firstRebound? scope [] scalars with
  | some name =>
      rw [compile_rebound hfree]
      exact compiledTypes_throw _ scope _
  | none =>
      obtain ⟨hnodup, -, hunbound⟩ := firstRebound?_eq_none hfree
      rw [compile_comprehension hfree]
      apply hconstraint.operand hscope
      intro c mid sites hwild hfirst
      apply compiledTypes_ensureVariables
      intro harity
      have hinner := wellScoped_comprehensionScope hscope hnodup hunbound harity
        (hfirst.wellScoped hscope).1
      rw [← Scope.context_comprehensionScope]
      apply hbody.operand hinner
      intro b mid' sites' hwild' hsecond
      rw [compiledTypes_define hscope
          fun hemit => ⟨_, _, .comprehension hfree hwild hwild' hfirst harity hsecond hemit⟩,
        emittedTypes_emitComprehension harity]
      rfl

theorem infers_letIn {value body : Expr} (hvalue : Infers options value)
    (hbody : Infers options body) (name : String) (span : Span) :
    Infers options (.letIn name value body span) := by
  intro scope names hscope
  simp only [infer, Scope.lookup_context, Option.isSome_map]
  cases hfree : scope.isBound name with
  | true =>
      have hbound : (scope.lookup name).isSome = true := hfree
      simp only [compile_bound hfree, hbound, if_true]
      exact compiledTypes_throw _ scope _
  | false =>
      have hunbound := Scope.isBound_eq_false_iff.mp hfree
      simp only [compile_letIn hfree, hunbound, Option.isSome_none, Bool.false_eq_true, if_false]
      apply hvalue.operand hscope
      intro a mid sites hwild hfirst
      have hinner := hscope.bind_relation hunbound (hfirst.wellScoped hscope).1
      rw [← Scope.context_bind, ← hbody mid hinner]
      unfold compiledTypes
      cases hrun : compile options (scope.bind name (.relation a.predicate)) body mid with
      | error failure => rw [bind_of_error hrun]
      | ok result =>
          rw [bind_of_ok hrun]
          rfl

theorem infers_compile (options : Options) (e : Expr) : Infers options e := by
  induction e with
  | constant value span => exact infers_constant value span
  | name name span => exact infers_name name span
  | formula text span => exact infers_formula text span
  | unary op inner span ih => exact infers_unary ih op span
  | binary op left right span ihleft ihright => exact infers_binary ihleft ihright op span
  | comprehension style scalars constraint body span ihconstraint ihbody =>
      exact infers_comprehension ihconstraint ihbody style scalars span
  | letIn name value body span ihvalue ihbody => exact infers_letIn ihvalue ihbody name span

/-- The failure of an expression depends on the context only. -/
theorem compile_eq_error_iff (hscope : scope.WellScoped) {failure : CompileError} :
    compile options scope e names = .error failure ↔ infer scope.context e = .error failure := by
  rw [← infers_compile options e names hscope, compiledTypes]
  cases compile options scope e names with
  | error found => simp [Except.map]
  | ok result => simp [Except.map]

end Compile

end RelQuery
