import RelQuery.Proofs.Compile.Assembly
import RelQuery.Proofs.Typing.Judgement

/-!
# The compiler accepts what has a type

A derivation of the compiler is a derivation of the type system once predicates are replaced by
their column types.  In the other direction, an operator whose operands have the types it asks for
gives a definition: the checks of the emission are the rules of the type system, and grounding
cannot fail in a well-scoped scope.
-/

namespace RelQuery

namespace Compile

variable {scope : Scope} {names mid later : FreshNames} {a b : Predicate} {em : Emission}

/-! ## Emissions have the types of the rules -/

/-- The operand of a successful emission has types that the operator accepts. -/
theorem unaryTyping_of_emit {op : UnaryOp} (h : emitUnary op a scope names = .ok (em, later)) :
    UnaryTyping op a.types em.result.predicate.types := by
  cases op with
  | quantify quantifier =>
      obtain ⟨result, rules, -, hcolumns, -, rfl, -⟩ := emitQuantifier_ok h
      have htypes : result.types = [] := by simp [Predicate.types, hcolumns]
      rw [Emission.result_single, htypes]
      exact .quantify quantifier a.types
  | count =>
      obtain ⟨result, count, grounding, -, -, hcolumns, -, rfl⟩ := emitCount_ok h
      have htypes : result.types = [.number] := by simp [Predicate.types, hcolumns, Column.named]
      rw [Emission.result_single, htypes]
      exact .count a.types
  | closure =>
      obtain ⟨result, source, target, middle, type, -, hoperand, hcolumns, -, rfl⟩ :=
        emitClosure_ok h
      have htypes : result.types = a.types := by simp [Predicate.types, hcolumns]
      rw [Emission.result_single, htypes, hoperand]
      exact .closure type
  | reflexiveClosure => simp [emitUnary, throw_eq_ok] at h
  | transpose =>
      obtain ⟨result, source, target, -, harity, hcolumns, -, rfl⟩ := emitTranspose_ok h
      obtain ⟨first, second, hoperand⟩ := List.length_eq_two.mp (a.length_types.trans harity)
      have htypes : result.types = a.types.reverse := by simp [Predicate.types, hcolumns]
      rw [Emission.result_single, htypes, hoperand]
      exact .transpose first second
  | aggregate function =>
      obtain ⟨result, value, each, grounding, -, hlast, -, hcolumns, -, rfl⟩ := emitAggregate_ok h
      obtain ⟨init, hoperand⟩ := Predicate.types_of_lastType hlast
      have htypes : result.types = [.number] := by simp [Predicate.types, hcolumns, Column.named]
      rw [Emission.result_single, htypes, hoperand]
      exact .aggregate function init
  | wildcardApply =>
      obtain ⟨result, vars, -, harity, -, hcolumns, -, rfl⟩ := emitDropFirst_ok h
      obtain ⟨first, hfirst⟩ := Predicate.exists_firstType harity
      obtain ⟨rest, hoperand⟩ := Predicate.types_of_firstType hfirst
      have htypes : result.types = a.types.tail := by simp [Predicate.types, hcolumns]
      rw [Emission.result_single, htypes, hoperand]
      exact .wildcardApply first rest
  | index =>
      obtain ⟨ranked, hranked, rfl⟩ := emitIndex_ok h
      obtain ⟨result, vars, previous, next, -, harity, -, hcolumns, -, rfl⟩ := rank_ok hranked
      obtain ⟨first, hfirst⟩ := Predicate.exists_firstType harity
      obtain ⟨rest, hoperand⟩ := Predicate.types_of_firstType hfirst
      have htypes : result.types = .number :: a.types := by
        simp [Predicate.types, hcolumns, Column.named]
      rw [htypes, hoperand]
      exact .index first rest
  | concat =>
      obtain ⟨ranked, sums, top, result, mid₁, mid₂, mid₃, hlast, -, -, -, hresult, rfl⟩ :=
        emitConcat_ok h
      obtain ⟨text, highest, value, -, hcolumns, -, rfl⟩ := concatenated_ok hresult
      obtain ⟨init, hoperand⟩ := Predicate.types_of_lastType hlast
      have htypes : text.types = [.symbol] := by simp [Predicate.types, hcolumns, Column.named]
      rw [htypes, hoperand]
      exact .concat init

/-- The operands of a successful emission have types that the operator accepts. -/
theorem binaryTyping_of_emit {op : BinaryOp}
    (h : emitBinary op a b scope names = .ok (em, later)) :
    BinaryTyping op a.types b.types em.result.predicate.types := by
  cases op with
  | join =>
      obtain ⟨result, left, right, type, -, -, -, hlast, hfirst, hcolumns, -, rfl⟩ := emitJoin_ok h
      obtain ⟨init, hleft⟩ := Predicate.types_of_lastType hlast
      obtain ⟨rest, hright⟩ := Predicate.types_of_firstType hfirst
      have htypes : result.types = a.types.dropLast ++ b.types.tail := by
        simp [Predicate.types, hcolumns, List.map_dropLast]
      rw [Emission.result_single, htypes, hleft, hright, List.dropLast_concat, List.tail_cons]
      exact .join init rest type
  | compare comparison =>
      obtain ⟨result, lhs, rhs, type, -, hleft, hright, hordering, hcolumns, -, rfl⟩ :=
        emitComparison_ok h
      have htypes : result.types = [] := by simp [Predicate.types, hcolumns]
      rw [Emission.result_single, htypes, hleft, hright]
      cases hkind : comparison.isOrdering with
      | false => exact .equality hkind type
      | true =>
          rw [hordering hkind]
          exact .ordering hkind
  | set operation =>
      obtain ⟨result, vars, rules, -, hequal, -, hcolumns, -, rfl, -⟩ := emitSetOperation_ok h
      have htypes : result.types = a.types := by simp [Predicate.types, hcolumns]
      rw [Emission.result_single, htypes, ← hequal]
      exact .set operation a.types
  | product =>
      obtain ⟨result, left, right, -, -, -, hcolumns, -, rfl⟩ := emitProduct_ok h
      have htypes : result.types = a.types ++ b.types := by simp [Predicate.types, hcolumns]
      rw [Emission.result_single, htypes]
      exact .product a.types b.types
  | apply =>
      obtain ⟨result, vars, -, ⟨rest, hsplit⟩, -, hcolumns, -, rfl⟩ := emitApply_ok h
      have htypes : result.types = a.types.drop b.types.length := by
        simp [Predicate.types, hcolumns, Predicate.arity]
      rw [Emission.result_single, htypes, ← hsplit, List.drop_left]
      exact .apply b.types rest
  | domainRestrict =>
      obtain ⟨result, vars, -, ⟨rest, hsplit⟩, -, hcolumns, -, rfl⟩ := emitDomainRestrict_ok h
      have htypes : result.types = b.types := by simp [Predicate.types, hcolumns]
      rw [Emission.result_single, htypes, ← hsplit]
      exact .domainRestrict a.types rest
  | rangeRestrict =>
      obtain ⟨result, vars, -, ⟨init, hsplit⟩, -, hcolumns, -, rfl⟩ := emitRangeRestrict_ok h
      have htypes : result.types = a.types := by simp [Predicate.types, hcolumns]
      rw [Emission.result_single, htypes, ← hsplit]
      exact .rangeRestrict init b.types
  | arith operation =>
      obtain ⟨result, lhs, rhs, value, -, hleft, hright, hcolumns, -, rfl⟩ := emitArithmetic_ok h
      have htypes : result.types = [.number] := by simp [Predicate.types, hcolumns, Column.named]
      rw [Emission.result_single, htypes, hleft, hright]
      exact .arith operation

theorem types_emitScalar {scalar : String} {binding : ScalarBinding}
    (h : emitScalar scalar binding names = .ok (em, later)) :
    em.result.predicate.types = [binding.type] := by
  obtain ⟨result, -, hcolumns, -, rfl⟩ := emitScalar_ok h
  simp [Predicate.types, hcolumns, Column.named]

theorem types_emitConstant {value : Constant}
    (h : emitConstant value names = .ok (em, later)) :
    em.result.predicate.types = [value.type] := by
  obtain ⟨result, fresh, -, hcolumns, -, rfl⟩ := emitConstant_ok h
  rw [Emission.result_single, Predicate.types, hcolumns]
  cases value <;> rfl

theorem types_emitFormula {text : String} (h : emitFormula text scope names = .ok (em, later)) :
    em.result.predicate.types = [.number] := by
  obtain ⟨result, value, grounding, -, -, hcolumns, -, rfl⟩ := emitFormula_ok h
  simp [Predicate.types, hcolumns, Column.named]

/-- Dropping the last column asks for one. -/
theorem types_emitDropLast (h : emitDropLast a names = .ok (em, later)) :
    ∃ last, a.types = em.result.predicate.types ++ [last] := by
  obtain ⟨result, vars, -, harity, -, hcolumns, -, rfl⟩ := emitDropLast_ok h
  obtain ⟨last, hlast⟩ := Predicate.exists_lastType harity
  obtain ⟨init, hoperand⟩ := Predicate.types_of_lastType hlast
  have htypes : result.types = init := by
    rw [Predicate.types, hcolumns, List.map_dropLast, ← Predicate.types, hoperand,
      List.dropLast_concat]
  exact ⟨last, by rw [Emission.result_single, htypes, hoperand]⟩

theorem types_emitComprehension {style : Style} {scalars : List String} {c : Predicate}
    (harity : c.arity = scalars.length)
    (h : emitComprehension style scalars c b names = .ok (em, later)) :
    em.result.predicate.types = style.types c.types b.types := by
  obtain ⟨result, vars, -, -, hcolumns, -, rfl⟩ := emitComprehension_ok h
  rw [Emission.result_single, Predicate.types, hcolumns, List.map_append]
  cases style with
  | image => rfl
  | keep =>
      have hvariables : (variableColumns .keep scalars c).map (·.type) = c.types := by
        have hzip : ((scalars.zip c.columns).map Prod.snd) = c.columns :=
          List.map_snd_zip (Nat.le_of_eq harity)
        conv_rhs => rw [Predicate.types, ← hzip]
        simp [variableColumns, Column.named]
      rw [hvariables]
      rfl

/-! ## Operands that an operator accepts have an emission -/

theorem bne_arity_of_types {type : ColumnType} {types : List ColumnType}
    (h : a.types = type :: types) : (a.arity != 0) = true := by
  have hlength : a.arity = types.length + 1 := by
    rw [← a.length_types, h, List.length_cons]
  simp [hlength]

theorem bne_arity_of_types_concat {type : ColumnType} {types : List ColumnType}
    (h : a.types = types ++ [type]) : (a.arity != 0) = true := by
  have hlength : a.arity = types.length + 1 := by
    rw [← a.length_types, h, List.length_append, List.length_singleton]
  simp [hlength]

theorem lastType?_of_types {type : ColumnType} {types : List ColumnType}
    (h : a.types = types ++ [type]) : a.lastType? = some type := by
  rw [Predicate.lastType?, h, List.getLast?_concat]

theorem exists_emitUnary {op : UnaryOp} {types : List ColumnType}
    (hop : UnaryTyping op a.types types) (hparams : ∀ x ∈ a.params, scope.IsScalar x)
    (names : FreshNames) : ∃ em later, emitUnary op a scope names = .ok (em, later) := by
  obtain ⟨grounding, hground⟩ := Scope.exists_ground hparams []
  generalize hoperand : a.types = operand at hop
  cases hop with
  | quantify quantifier =>
      cases quantifier with
      | some => exact ⟨_, _, rfl⟩
      | no =>
          simp only [emitUnary, emitQuantifier, hground]
          exact ⟨_, _, rfl⟩
  | count =>
      simp only [emitUnary, emitCount, hground]
      exact ⟨_, _, rfl⟩
  | closure type =>
      have harity : a.arity = 2 := by rw [← a.length_types, hoperand]; rfl
      simp only [emitUnary, emitClosure, ensureArity, ensureType, ensure, harity, hoperand,
        beq_self_eq_true, if_true]
      exact ⟨_, _, rfl⟩
  | transpose source target =>
      have harity : a.arity = 2 := by rw [← a.length_types, hoperand]; rfl
      simp only [emitUnary, emitTranspose, ensureArity, ensure, harity, beq_self_eq_true, if_true]
      exact ⟨_, _, rfl⟩
  | aggregate function init =>
      simp only [emitUnary, emitAggregate, lastType?_of_types hoperand, ensureType, ensure,
        hground, beq_self_eq_true, if_true]
      exact ⟨_, _, rfl⟩
  | wildcardApply first rest =>
      simp only [emitUnary, emitDropFirst, ensureColumn, ensure, bne_arity_of_types hoperand,
        if_true]
      exact ⟨_, _, rfl⟩
  | index first rest =>
      simp only [emitUnary, emitIndex, rank, ensureColumn, ensure, bne_arity_of_types hoperand,
        if_true]
      exact ⟨_, _, rfl⟩
  | concat init =>
      simp only [emitUnary, emitConcat, rank, lastType?_of_types hoperand, ensureType,
        ensureColumn, ensure, bne_arity_of_types_concat hoperand, beq_self_eq_true, if_true]
      exact ⟨_, _, rfl⟩

theorem exists_emitDropLast {last : ColumnType} {init : List ColumnType}
    (h : a.types = init ++ [last]) (names : FreshNames) :
    ∃ em later, emitDropLast a names = .ok (em, later) := by
  simp only [emitDropLast, ensureColumn, ensure, bne_arity_of_types_concat h, if_true]
  exact ⟨_, _, rfl⟩

theorem exists_emitFormula (hscope : scope.WellScoped) (text : String) (names : FreshNames) :
    ∃ em later, emitFormula text scope names = .ok (em, later) := by
  have hparams : ∀ x ∈ scope.scalarNames, scope.IsScalar x := by
    intro x hx
    exact hscope.isScalar_of_mem hx
  obtain ⟨grounding, hground⟩ := Scope.exists_ground hparams []
  simp only [emitFormula, hground]
  exact ⟨_, _, rfl⟩

theorem exists_emitBinary {op : BinaryOp} {types : List ColumnType}
    (hop : BinaryTyping op a.types b.types types) (ha : ∀ x ∈ a.params, scope.IsScalar x)
    (hb : ∀ x ∈ b.params, scope.IsScalar x) (names : FreshNames) :
    ∃ em later, emitBinary op a b scope names = .ok (em, later) := by
  have hparams : ∀ x ∈ mergeParams a.params b.params, scope.IsScalar x := by
    intro x hx
    exact (mem_mergeParams.mp hx).elim (ha x) (hb x)
  generalize hleft : a.types = left at hop
  generalize hright : b.types = right at hop
  cases hop with
  | join init rest type =>
      have hfirst : b.firstType? = some type := by rw [Predicate.firstType?, hright]; rfl
      simp only [emitBinary, emitJoin, ensureColumn, ensureType, ensure,
        lastType?_of_types hleft, hfirst, bne_arity_of_types_concat hleft,
        bne_arity_of_types hright, beq_self_eq_true, if_true]
      exact ⟨_, _, rfl⟩
  | product => exact ⟨_, _, rfl⟩
  | apply argument rest =>
      have hstart : b.types.isPrefixOf a.types = true := by
        rw [hleft, hright, List.isPrefixOf_iff_prefix]
        exact List.prefix_append ..
      simp only [emitBinary, emitApply, ensure, hstart, if_true]
      exact ⟨_, _, rfl⟩
  | domainRestrict domain rest =>
      have hstart : a.types.isPrefixOf b.types = true := by
        rw [hleft, hright, List.isPrefixOf_iff_prefix]
        exact List.prefix_append ..
      simp only [emitBinary, emitDomainRestrict, ensure, hstart, if_true]
      exact ⟨_, _, rfl⟩
  | rangeRestrict init range =>
      have hend : b.types.isSuffixOf a.types = true := by
        rw [hleft, hright, List.isSuffixOf_iff_suffix]
        exact List.suffix_append ..
      simp only [emitBinary, emitRangeRestrict, ensure, hend, if_true]
      exact ⟨_, _, rfl⟩
  | set operation =>
      obtain ⟨forLeft, hforLeft⟩ := Scope.exists_ground hparams a.params
      obtain ⟨forRight, hforRight⟩ := Scope.exists_ground hparams b.params
      simp only [emitBinary, emitSetOperation, ensure, hleft, hright, beq_self_eq_true, if_true]
      cases operation with
      | union =>
          simp only [hforLeft, hforRight]
          exact ⟨_, _, rfl⟩
      | intersection => exact ⟨_, _, rfl⟩
      | difference =>
          simp only [hforLeft]
          exact ⟨_, _, rfl⟩
  | equality hequality type =>
      have hscalars : scalarTypes a b = .ok (type, type) :=
        scalarTypes_eq_ok.mpr ⟨hleft, hright⟩
      simp only [emitBinary, emitComparison, hscalars, ensureType, ensure, hequality,
        Bool.not_false, Bool.true_or, if_true]
      cases type with
      | number => exact ⟨_, _, rfl⟩
      | symbol => exact ⟨_, _, rfl⟩
  | ordering hordering =>
      have hscalars : scalarTypes a b = .ok (.number, .number) :=
        scalarTypes_eq_ok.mpr ⟨hleft, hright⟩
      simp only [emitBinary, emitComparison, hscalars, ensureType, ensure, hordering,
        Bool.not_true, Bool.false_or]
      exact ⟨_, _, rfl⟩
  | arith operation =>
      have hscalars : scalarTypes a b = .ok (.number, .number) :=
        scalarTypes_eq_ok.mpr ⟨hleft, hright⟩
      simp only [emitBinary, emitArithmetic, hscalars, ensureType, ensure]
      exact ⟨_, _, rfl⟩

end Compile

/-! ## Contexts of scopes -/

theorem lookup_map_snd {α β : Type} (f : α → β) (entries : List (String × α)) (key : String) :
    (entries.map fun entry => (entry.1, f entry.2)).lookup key = (entries.lookup key).map f := by
  induction entries with
  | nil => rfl
  | cons entry rest ih =>
      rw [List.map_cons, List.lookup_cons, List.lookup_cons, ih]
      cases key == entry.1 <;> rfl

/-- The context that says of every name of a scope what it stands for. -/
def Scope.context (scope : Scope) : Context :=
  scope.frames.map fun entry => (entry.1, entry.2.kind)

namespace Scope

variable {scope : Scope} {name : String}

theorem lookup_context (scope : Scope) (name : String) :
    scope.context.lookup name = (scope.lookup name).map Binding.kind :=
  lookup_map_snd Binding.kind scope.frames name

theorem lookup_context_eq_none : scope.context.lookup name = none ↔ scope.lookup name = none := by
  rw [lookup_context, Option.map_eq_none_iff]

theorem context_bind (scope : Scope) (name : String) (p : Predicate) :
    (scope.bind name (.relation p)).context = (name, .relation p.types) :: scope.context :=
  rfl

theorem context_comprehensionScope (scope : Scope) (c : Predicate) (scalars : List String) :
    (Compile.comprehensionScope scope c scalars).context =
      scope.context.bindScalars scalars c.types := by
  have hentries : (Compile.comprehensionEntries c scalars).map
      (fun entry => (entry.1, entry.2.kind)) = scalars.zip (c.types.map .scalar) := by
    rw [Compile.comprehensionEntries, List.map_map, Predicate.types, List.map_map,
      List.zip_map_right, ← List.zipIdx_map_fst 0 (scalars.zip c.columns), List.map_map,
      List.zipIdx_map_fst]
    rfl
  rw [context, Compile.frames_comprehensionScope, List.map_append, List.map_reverse, hentries]
  rfl

theorem context_ofInputs {inputs : List (String × List ColumnType)}
    (h : ofInputs inputs = .ok scope) : scope.context = inputContext inputs := by
  have hentry : ∀ input : String × List ColumnType,
      ((inputEntry input).1, (inputEntry input).2.kind) = (input.1, .relation input.2) := by
    intro input
    have htypes : (inputPredicate input.1 input.2).types = input.2 := by
      rw [Predicate.types, inputPredicate, List.map_map]
      exact List.map_id _
    simp [inputEntry, Binding.kind, htypes]
  rw [context, (frames_ofInputs h).1, List.map_reverse, List.map_map, inputContext]
  exact congrArg List.reverse (List.map_congr_left fun input _ => hentry input)

end Scope

theorem Expr.isWildcard_eq_true_iff {e : Expr} :
    e.isWildcard = true ↔ ∃ span, e = .name wildcard span := by
  cases e <;> simp [Expr.isWildcard]

/-- Where the wildcard is unbound, it has no type. -/
theorem HasType.isWildcard_eq_false {context : Context} {e : Expr} {types : List ColumnType}
    (h : HasType context e types) (hwild : context.lookup wildcard = none) :
    e.isWildcard = false := by
  rw [← Bool.not_eq_true, Expr.isWildcard_eq_true_iff]
  rintro ⟨span, rfl⟩
  cases h with
  | relation hlookup => simp [hwild] at hlookup
  | scalar hlookup => simp [hwild] at hlookup

namespace Compile

variable {scope : Scope} {names later : FreshNames} {e : Expr} {p : Predicate}
variable {sites : List Site}

/-! ## Derivations have types -/

theorem Derives.hasType (h : Derives scope e names p sites later) :
    HasType scope.context e p.types := by
  induction h with
  | @relation scope name span names p hlookup =>
      have hcontext : scope.context.lookup name = some (.relation p.types) := by
        rw [Scope.lookup_context, hlookup]
        rfl
      exact .relation hcontext span
  | @scalar scope name span names later binding em hlookup hemit =>
      have hcontext : scope.context.lookup name = some (.scalar binding.type) := by
        rw [Scope.lookup_context, hlookup]
        rfl
      rw [types_emitScalar hemit]
      exact .scalar hcontext span
  | constant hemit =>
      rw [types_emitConstant hemit]
      exact .constant _ _ _
  | formula hemit =>
      rw [types_emitFormula hemit]
      exact .formula _ _ _
  | unary hop hwild hinner hemit ih => exact .unary ih (unaryTyping_of_emit hemit) _
  | @dropFirst scope left right span names mid later b sites em hleft hright hinner hemit ih =>
      obtain ⟨wild, rfl⟩ := Expr.isWildcard_eq_true_iff.mp hleft
      have hemit : emitUnary .wildcardApply b scope mid = .ok (em, later) := hemit
      have htyping := unaryTyping_of_emit hemit
      generalize b.types = types at ih htyping
      cases htyping with
      | wildcardApply first => exact .dropFirst ih wild span
  | dropLast hleft hright hinner hemit ih =>
      obtain ⟨wild, rfl⟩ := Expr.isWildcard_eq_true_iff.mp hright
      obtain ⟨last, hoperand⟩ := types_emitDropLast hemit
      rw [hoperand] at ih
      exact .dropLast ih wild _
  | binary hleft hright hfirst hsecond hemit ihfirst ihsecond =>
      exact .binary ihfirst ihsecond (binaryTyping_of_emit hemit) _
  | letIn hfree hwild hvalue hbody ihvalue ihbody =>
      have hunbound := Scope.isBound_eq_false_iff.mp hfree
      exact .letIn (Scope.lookup_context_eq_none.mpr hunbound) ihvalue ihbody _
  | comprehension hfree hwild hwild' hconstraint harity hbody hemit ihconstraint ihbody =>
      obtain ⟨hnodup, -, hunbound⟩ := firstRebound?_eq_none hfree
      rw [Scope.context_comprehensionScope] at ihbody
      rw [types_emitComprehension harity hemit]
      refine .comprehension hnodup ?_ ihconstraint ?_ ihbody _ _
      · intro x hx
        exact Scope.lookup_context_eq_none.mpr (hunbound x hx)
      · rw [Predicate.length_types, harity]

/-! ## Typed expressions have derivations -/

theorem lookup_comprehensionScope_eq_none {c : Predicate} {scalars : List String} {x : String}
    (hscope : scope.WellScoped) (hnodup : scalars.Nodup)
    (hunbound : ∀ x ∈ scalars, scope.lookup x = none) (harity : c.arity = scalars.length)
    (hx : x ∉ scalars) (hnone : scope.lookup x = none) :
    (comprehensionScope scope c scalars).lookup x = none := by
  rw [Option.eq_none_iff_forall_ne_some]
  intro binding hbinding
  rcases (lookup_comprehensionScope hscope hnodup hunbound harity).mp hbinding with
    hentry | houter
  · obtain ⟨k, column, hk, -, -⟩ := mem_comprehensionEntries.mp hentry
    exact hx (List.mem_of_getElem? hk)
  · rw [hnone] at houter
    cases houter

/-- In a well-scoped scope in which the wildcard is unbound, an expression with a type has a
derivation, whose predicate has that type. -/
theorem exists_derives_of_hasType {types : List ColumnType}
    (h : HasType scope.context e types) (hscope : scope.WellScoped)
    (hwild : scope.lookup wildcard = none) (hbinders : wildcard ∉ e.binders)
    (names : FreshNames) :
    ∃ p sites later, Derives scope e names p sites later ∧ p.types = types := by
  have hcontext : ∀ {scope : Scope}, scope.lookup wildcard = none →
      scope.context.lookup wildcard = none := Scope.lookup_context_eq_none.mpr
  induction e generalizing scope types names with
  | constant value span =>
      cases h
      exact ⟨_, _, _, .constant rfl, types_emitConstant rfl⟩
  | name name span =>
      cases h with
      | relation hlookup =>
          rw [Scope.lookup_context, Option.map_eq_some_iff] at hlookup
          obtain ⟨binding, hbinding, hkind⟩ := hlookup
          cases binding with
          | relation p =>
              cases hkind
              exact ⟨p, [], names, .relation hbinding, rfl⟩
          | scalar s => cases hkind
      | scalar hlookup =>
          rw [Scope.lookup_context, Option.map_eq_some_iff] at hlookup
          obtain ⟨binding, hbinding, hkind⟩ := hlookup
          cases binding with
          | relation p => cases hkind
          | scalar s =>
              cases hkind
              exact ⟨_, _, _, .scalar hbinding rfl, types_emitScalar rfl⟩
  | formula text span =>
      cases h
      obtain ⟨em, later, hemit⟩ := exists_emitFormula hscope text names
      exact ⟨_, _, _, .formula hemit, types_emitFormula hemit⟩
  | unary op inner span ih =>
      cases h with
      | unary hinner hop =>
          have hnotWild := hinner.isWildcard_eq_false (hcontext hwild)
          obtain ⟨a, sites, mid, hderives, rfl⟩ := ih hinner hscope hwild hbinders names
          obtain ⟨hparams, -⟩ := hderives.wellScoped hscope
          obtain ⟨em, later, hemit⟩ := exists_emitUnary hop hparams mid
          have hreflexive : op ≠ .reflexiveClosure := by
            rintro rfl
            cases hop
          refine ⟨_, _, _, .unary hreflexive hnotWild hderives hemit, ?_⟩
          rw [(unaryTyping_of_emit hemit).result_eq, hop.result_eq]
  | binary op left right span ihleft ihright =>
      rw [Expr.binders, List.mem_append, not_or] at hbinders
      cases h with
      | @dropFirst _ _ first _ hright wild =>
          have hnotWild := hright.isWildcard_eq_false (hcontext hwild)
          obtain ⟨b, sites, mid, hderives, hb⟩ := ihright hright hscope hwild hbinders.2 names
          obtain ⟨hparams, -⟩ := hderives.wellScoped hscope
          have hop : UnaryTyping .wildcardApply b.types types := by
            rw [hb]
            exact .wildcardApply first types
          obtain ⟨em, later, hemit⟩ := exists_emitUnary hop hparams mid
          refine ⟨_, _, _, .dropFirst rfl hnotWild hderives hemit, ?_⟩
          rw [(unaryTyping_of_emit hemit).result_eq, hop.result_eq]
      | @dropLast _ _ last _ hleft wild =>
          have hnotWild := hleft.isWildcard_eq_false (hcontext hwild)
          obtain ⟨a, sites, mid, hderives, ha⟩ := ihleft hleft hscope hwild hbinders.1 names
          obtain ⟨em, later, hemit⟩ := exists_emitDropLast ha mid
          refine ⟨_, _, _, .dropLast hnotWild rfl hderives hemit, ?_⟩
          obtain ⟨last', hoperand⟩ := types_emitDropLast hemit
          rw [ha] at hoperand
          exact (List.append_inj_left' hoperand rfl).symm
      | binary hleft hright hop =>
          have hnotWild := hleft.isWildcard_eq_false (hcontext hwild)
          have hnotWild' := hright.isWildcard_eq_false (hcontext hwild)
          obtain ⟨a, sites, mid, hfirst, rfl⟩ := ihleft hleft hscope hwild hbinders.1 names
          obtain ⟨b, sites', mid', hsecond, rfl⟩ := ihright hright hscope hwild hbinders.2 mid
          obtain ⟨ha, -⟩ := hfirst.wellScoped hscope
          obtain ⟨hb, -⟩ := hsecond.wellScoped hscope
          obtain ⟨em, later, hemit⟩ := exists_emitBinary hop ha hb mid'
          refine ⟨_, _, _, .binary hnotWild hnotWild' hfirst hsecond hemit, ?_⟩
          rw [(binaryTyping_of_emit hemit).result_eq, hop.result_eq]
  | comprehension style scalars constraint body span ihconstraint ihbody =>
      simp only [Expr.binders, List.mem_append, not_or] at hbinders
      cases h with
      | comprehension hnodup hfree hconstraint hlength hbody =>
          have hnotWild := hconstraint.isWildcard_eq_false (hcontext hwild)
          have hunbound : ∀ x ∈ scalars, scope.lookup x = none := by
            intro x hx
            exact Scope.lookup_context_eq_none.mp (hfree x hx)
          obtain ⟨c, sites, mid, hfirst, rfl⟩ :=
            ihconstraint hconstraint hscope hwild hbinders.2.1 names
          have harity : c.arity = scalars.length := by rw [← c.length_types, hlength]
          obtain ⟨hparams, -⟩ := hfirst.wellScoped hscope
          have hscope' := wellScoped_comprehensionScope hscope hnodup hunbound harity hparams
          have hwild' := lookup_comprehensionScope_eq_none hscope hnodup hunbound harity
            hbinders.1 hwild
          rw [← Scope.context_comprehensionScope] at hbody
          have hnotWild' := hbody.isWildcard_eq_false (hcontext hwild')
          obtain ⟨b, sites', mid', hsecond, rfl⟩ :=
            ihbody hbody hscope' hwild' hbinders.2.2 mid
          have hseen : ∀ x ∈ scalars, x ∉ ([] : List String) := by simp
          refine ⟨_, _, _, .comprehension (firstRebound?_of_free hnodup hseen hunbound) hnotWild
            hnotWild' hfirst harity hsecond rfl, ?_⟩
          exact types_emitComprehension harity rfl
  | letIn name value body span ihvalue ihbody =>
      simp only [Expr.binders, List.mem_cons, List.mem_append, not_or] at hbinders
      cases h with
      | letIn hfree hvalue hbody =>
          have hnotWild := hvalue.isWildcard_eq_false (hcontext hwild)
          have hunbound := Scope.lookup_context_eq_none.mp hfree
          obtain ⟨a, sites, mid, hfirst, rfl⟩ := ihvalue hvalue hscope hwild hbinders.2.1 names
          obtain ⟨hparams, -⟩ := hfirst.wellScoped hscope
          rw [← Scope.context_bind] at hbody
          have hwild' : (scope.bind name (.relation a)).lookup wildcard = none := by
            rw [Scope.lookup_bind, if_neg hbinders.1, hwild]
          obtain ⟨b, sites', later, hsecond, rfl⟩ :=
            ihbody hbody (hscope.bind_relation hunbound hparams) hwild' hbinders.2.2 mid
          exact ⟨b, _, later,
            .letIn (Scope.isBound_eq_false_iff.mpr hunbound) hnotWild hfirst hsecond, rfl⟩

end Compile

/-- The compiler accepts exactly the expressions that have a type, and gives them that type, when
neither an input nor a binder of the expression is the wildcard. -/
theorem compiles_iff_hasType {inputs : List (String × List ColumnType)} {scope : Scope}
    {e : Expr} (hinputs : Scope.ofInputs inputs = .ok scope)
    (hnames : wildcard ∉ inputs.map Prod.fst) (hbinders : wildcard ∉ e.binders)
    (options : Compile.Options) (types : List ColumnType) :
    (∃ c, e.compile scope options = .ok c ∧ c.predicate.types = types) ↔
      HasType (inputContext inputs) e types := by
  have hscope := Scope.wellScoped_ofInputs hinputs
  have hwild : scope.lookup wildcard = none := by
    rw [Option.eq_none_iff_forall_ne_some]
    intro binding hbinding
    obtain ⟨types, hmem, -⟩ := (Scope.lookup_ofInputs hinputs).mp hbinding
    exact hnames (List.mem_map_of_mem hmem)
  rw [← Scope.context_ofInputs hinputs]
  constructor
  · rintro ⟨c, hcompile, rfl⟩
    obtain ⟨later, hrun⟩ := Expr.compile_eq_ok.mp hcompile
    obtain ⟨sites, hderives, -⟩ := Compile.exists_derives_of_compile hrun
    exact hderives.hasType
  · intro htyped
    obtain ⟨p, sites, later, hderives, rfl⟩ :=
      Compile.exists_derives_of_hasType htyped hscope hwild hbinders (.inScope scope)
    obtain ⟨commands, hcommands⟩ :=
      Compile.exists_siteCommands (hderives.wellScoped hscope).2 options
    have hrun := Compile.compile_of_derives hderives hcommands
    exact ⟨⟨p, ⟨commands⟩⟩, Expr.compile_eq_ok.mpr ⟨later, hrun⟩, rfl⟩

theorem sample_compiles_iff_hasType :
    (wildcard ∉ Sample.inputs.map Prod.fst ∧ wildcard ∉ Sample.query.binders) ∧
      HasType (inputContext Sample.inputs) Sample.query [.symbol] ∧
      ¬ HasType (inputContext Sample.inputs) Sample.query [.number] := by
  have hnames : wildcard ∉ Sample.inputs.map Prod.fst := by decide
  have hbinders : wildcard ∉ Sample.query.binders := by decide
  have hiff := compiles_iff_hasType Sample.scope_ofInputs hnames hbinders ⟨true⟩
  refine ⟨⟨hnames, hbinders⟩, (hiff _).mp ⟨_, rfl, rfl⟩, ?_⟩
  rw [← hiff]
  rintro ⟨c, hcompile, htypes⟩
  cases hcompile
  cases htypes

end RelQuery
