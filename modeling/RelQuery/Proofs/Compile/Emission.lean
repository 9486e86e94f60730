import Mathlib.Tactic
import RelQuery.Compile.Basic
import RelQuery.Proofs.Schema.FreshNames
import RelQuery.Proofs.Schema.Scope

/-!
# What a node defines

For every operator there is one lemma here.  It takes a successful emission apart: which columns the
operands must have had, which names were taken from the supply, and which predicate and which rules
came out.  Everything later about programs goes through these lemmas, so no later proof opens an
emission again.
-/

namespace RelQuery.Compile

open Datalog (Term Literal Rule)
open FreshNames (Issued issued_relation issued_var issued_vars)

def Emission.definitions (em : Emission) : List Definition :=
  em.auxiliary ++ [em.result]

@[simp] theorem Emission.definitions_single (p : Predicate) (label : String)
    (rules : List Rule) :
    (Emission.single p label rules).definitions = [⟨p, label, [], rules⟩] :=
  rfl

theorem Emission.predicate_of_mem_single {p : Predicate} {label : String} {rules : List Rule}
    {d : Definition} (hd : d ∈ (Emission.single p label rules).definitions) :
    d.predicate = p := by
  rw [definitions_single, List.mem_singleton] at hd
  rw [hd]

@[simp] theorem Emission.result_single (p : Predicate) (label : String) (rules : List Rule) :
    (Emission.single p label rules).result = ⟨p, label, [], rules⟩ :=
  rfl

/-! ## Steps of an emission -/

section Runs

variable {σ ε α β : Type}

theorem bind_eq_ok {m : StateT σ (Except ε) α} {f : α → StateT σ (Except ε) β} {s : σ}
    {r : β × σ} :
    (m >>= f) s = .ok r ↔ ∃ x mid, m s = .ok (x, mid) ∧ f x mid = .ok r := by
  cases h : m s with
  | error cause => simp [bind, StateT.bind, Except.bind, h]
  | ok result =>
      obtain ⟨x, mid⟩ := result
      simp [bind, StateT.bind, Except.bind, h]

theorem bind_of_error {m : StateT σ (Except ε) α} {f : α → StateT σ (Except ε) β} {s : σ}
    {err : ε} (h : m s = .error err) : (m >>= f) s = .error err := by
  simp [bind, StateT.bind, Except.bind, h]

theorem bind_of_ok {m : StateT σ (Except ε) α} {f : α → StateT σ (Except ε) β} {s t : σ} {x : α}
    (h : m s = .ok (x, t)) : (m >>= f) s = f x t := by
  simp [bind, StateT.bind, Except.bind, h]

theorem pure_eq_ok {x y : α} {s t : σ} :
    (pure x : StateT σ (Except ε) α) s = .ok (y, t) ↔ x = y ∧ s = t := by
  change Except.ok (x, s) = Except.ok (y, t) ↔ x = y ∧ s = t
  simp

theorem lift_eq_ok {m : Except ε α} {x : α} {s t : σ} :
    (liftM m : StateT σ (Except ε) α) s = .ok (x, t) ↔ m = .ok x ∧ s = t := by
  cases m <;> simp [liftM, monadLift, MonadLift.monadLift, StateT.lift, bind, Except.bind,
    pure, Except.pure]

theorem lift_of_error {m : Except ε α} {err : ε} (h : m = .error err) (s : σ) :
    (liftM m : StateT σ (Except ε) α) s = .error err := by
  rw [h]
  rfl

theorem lift_of_ok {m : Except ε α} {x : α} (h : m = .ok x) (s : σ) :
    (liftM m : StateT σ (Except ε) α) s = .ok (x, s) := by
  rw [h]
  rfl

theorem throw_eq_ok {cause : ε} {s : σ} {r : α × σ} :
    (throw cause : StateT σ (Except ε) α) s = .ok r ↔ False := by
  simp [throw, throwThe, MonadExceptOf.throw, StateT.lift, bind, Except.bind]

end Runs

variable {names later : FreshNames} {a b : Predicate} {scope : Scope} {em : Emission}

theorem ensure_eq_ok {condition : Bool} {cause : Cause} {u : Unit} :
    ensure condition cause = .ok u ↔ condition = true := by
  cases condition <;> simp [ensure]

theorem ensure_eq_error {condition : Bool} {fault cause : Cause} :
    ensure condition fault = .error cause ↔ condition = false ∧ fault = cause := by
  cases condition <;> simp [ensure]

theorem freshRelation_ok {name : String} (h : freshRelation names = .ok (name, later)) :
    Issued names [name] [] later :=
  issued_relation (Except.ok.inj h)

theorem freshVar_ok {stem v : String} (h : freshVar stem names = .ok (v, later)) :
    Issued names [] [v] later :=
  issued_var (Except.ok.inj h)

theorem freshVars_ok {columns : List Column} {vars : List String}
    (h : freshVars columns names = .ok (vars, later)) :
    Issued names [] vars later ∧ vars.length = columns.length := by
  obtain ⟨hissued, hlength⟩ := issued_vars (Except.ok.inj h)
  exact ⟨hissued, by rw [hlength, List.length_map]⟩

/-- Fresh variables can be given any values without a change to a parameter. -/
theorem exists_override {α : Type} {relations vars : List String}
    (hissued : Issued names relations vars later) (f : String → α) (values : List α)
    (hlength : vars.length = values.length) :
    ∃ g : String → α, (∀ x, f (paramVar x) = g (paramVar x)) ∧ vars.map g = values := by
  refine ⟨override f vars values, ?_, map_override hissued.vars_nodup hlength⟩
  intro x
  refine (override_of_notMem ?_).symm
  intro hmem
  exact hissued.not_param hmem x rfl

/-! ## Joins, products, applications and restrictions -/

theorem emitJoin_ok (h : emitJoin a b names = .ok (em, later)) :
    ∃ (result : Predicate) (left right : List String) (type : ColumnType),
      Issued names [result.name] (left ++ right) later ∧
      left.length = a.arity ∧ right.length = b.arity ∧
      a.lastType? = some type ∧ b.firstType? = some type ∧
      result.columns = a.columns.dropLast ++ b.columns.tail ∧
      result.params = mergeParams a.params b.params ∧
      em = .single result "dot-join"
        [⟨result.atomOf (left.dropLast ++ right.tail),
          [.positive (a.atomOf left),
            .positive (b.atomOf (left.getLast?.toList ++ right.tail))]⟩] := by
  simp only [emitJoin, ensureColumn, bind_eq_ok, lift_eq_ok, ensure_eq_ok, bne_iff_ne] at h
  obtain ⟨_, _, ⟨hleft, rfl⟩, _, _, ⟨hright, rfl⟩, h⟩ := h
  obtain ⟨last, hlast⟩ := Predicate.exists_lastType hleft
  obtain ⟨first, hfirst⟩ := Predicate.exists_firstType hright
  simp only [hlast, hfirst, ensureType, bind_eq_ok, lift_eq_ok, ensure_eq_ok, pure_eq_ok,
    beq_iff_eq] at h
  obtain ⟨_, _, ⟨rfl, rfl⟩, left, mid, hvars, right, mid', hvars', name, _, hname, hem, rfl⟩ := h
  obtain ⟨hissued, hlength⟩ := freshVars_ok hvars
  obtain ⟨hissued', hlength'⟩ := freshVars_ok hvars'
  exact ⟨_, left, right, first,
    by simpa using (hissued.trans hissued').trans (freshRelation_ok hname), hlength, hlength',
    hlast, hfirst, rfl, rfl, hem.symm⟩

theorem emitDropLast_ok (h : emitDropLast a names = .ok (em, later)) :
    ∃ (result : Predicate) (vars : List String),
      Issued names [result.name] vars later ∧ a.arity ≠ 0 ∧ vars.length = a.arity - 1 ∧
      result.columns = a.columns.dropLast ∧ result.params = a.params ∧
      em = .single result "wildcard dot-join"
        [⟨result.atomOf vars, [.positive (a.atom (vars.map .var ++ [.wildcard]))]⟩] := by
  simp only [emitDropLast, ensureColumn, bind_eq_ok, lift_eq_ok, ensure_eq_ok, bne_iff_ne,
    pure_eq_ok] at h
  obtain ⟨_, _, ⟨hcolumn, rfl⟩, vars, mid, hvars, name, _, hname, hem, rfl⟩ := h
  obtain ⟨hissued, hlength⟩ := freshVars_ok hvars
  exact ⟨⟨name, a.columns.dropLast, a.params⟩, vars,
    by simpa using hissued.trans (freshRelation_ok hname), hcolumn,
    by rw [hlength, List.length_dropLast, Predicate.arity], rfl, rfl, hem.symm⟩

theorem emitDropFirst_ok (h : emitDropFirst a names = .ok (em, later)) :
    ∃ (result : Predicate) (vars : List String),
      Issued names [result.name] vars later ∧ a.arity ≠ 0 ∧ vars.length = a.arity - 1 ∧
      result.columns = a.columns.tail ∧ result.params = a.params ∧
      em = .single result "wildcard application"
        [⟨result.atomOf vars, [.positive (a.atom (.wildcard :: vars.map .var))]⟩] := by
  simp only [emitDropFirst, ensureColumn, bind_eq_ok, lift_eq_ok, ensure_eq_ok, bne_iff_ne,
    pure_eq_ok] at h
  obtain ⟨_, _, ⟨hcolumn, rfl⟩, vars, mid, hvars, name, _, hname, hem, rfl⟩ := h
  obtain ⟨hissued, hlength⟩ := freshVars_ok hvars
  exact ⟨⟨name, a.columns.tail, a.params⟩, vars,
    by simpa using hissued.trans (freshRelation_ok hname), hcolumn,
    by rw [hlength, List.length_tail, Predicate.arity], rfl, rfl, hem.symm⟩

theorem emitProduct_ok (h : emitProduct a b names = .ok (em, later)) :
    ∃ (result : Predicate) (left right : List String),
      Issued names [result.name] (left ++ right) later ∧
      left.length = a.arity ∧ right.length = b.arity ∧
      result.columns = a.columns ++ b.columns ∧
      result.params = mergeParams a.params b.params ∧
      em = .single result "cartesian product"
        [⟨result.atomOf (left ++ right),
          [.positive (a.atomOf left), .positive (b.atomOf right)]⟩] := by
  simp only [emitProduct, bind_eq_ok, pure_eq_ok] at h
  obtain ⟨left, mid, hvars, right, mid', hvars', name, _, hname, hem, rfl⟩ := h
  obtain ⟨hissued, hlength⟩ := freshVars_ok hvars
  obtain ⟨hissued', hlength'⟩ := freshVars_ok hvars'
  exact ⟨_, left, right, by simpa using (hissued.trans hissued').trans (freshRelation_ok hname),
    hlength, hlength', rfl, rfl, hem.symm⟩

theorem emitApply_ok (h : emitApply a b names = .ok (em, later)) :
    ∃ (result : Predicate) (vars : List String),
      Issued names [result.name] vars later ∧
      b.types <+: a.types ∧ vars.length = a.arity ∧
      result.columns = a.columns.drop b.arity ∧
      result.params = mergeParams a.params b.params ∧
      em = .single result "application"
        [⟨result.atomOf (vars.drop b.arity),
          [.positive (a.atomOf vars), .positive (b.atomOf (vars.take b.arity))]⟩] := by
  simp only [emitApply, bind_eq_ok, lift_eq_ok, ensure_eq_ok, pure_eq_ok,
    List.isPrefixOf_iff_prefix] at h
  obtain ⟨_, _, ⟨hstart, rfl⟩, vars, mid, hvars, name, _, hname, hem, rfl⟩ := h
  obtain ⟨hissued, hlength⟩ := freshVars_ok hvars
  exact ⟨_, vars, by simpa using hissued.trans (freshRelation_ok hname), hstart, hlength,
    rfl, rfl, hem.symm⟩

theorem emitDomainRestrict_ok (h : emitDomainRestrict a b names = .ok (em, later)) :
    ∃ (result : Predicate) (vars : List String),
      Issued names [result.name] vars later ∧
      a.types <+: b.types ∧ vars.length = b.arity ∧
      result.columns = b.columns ∧ result.params = mergeParams a.params b.params ∧
      em = .single result "prefix join"
        [⟨result.atomOf vars,
          [.positive (b.atomOf vars), .positive (a.atomOf (vars.take a.arity))]⟩] := by
  simp only [emitDomainRestrict, bind_eq_ok, lift_eq_ok, ensure_eq_ok, pure_eq_ok,
    List.isPrefixOf_iff_prefix] at h
  obtain ⟨_, _, ⟨hstart, rfl⟩, vars, mid, hvars, name, _, hname, hem, rfl⟩ := h
  obtain ⟨hissued, hlength⟩ := freshVars_ok hvars
  exact ⟨⟨name, b.columns, mergeParams a.params b.params⟩, vars,
    by simpa using hissued.trans (freshRelation_ok hname), hstart, hlength, rfl, rfl, hem.symm⟩

theorem emitRangeRestrict_ok (h : emitRangeRestrict a b names = .ok (em, later)) :
    ∃ (result : Predicate) (vars : List String),
      Issued names [result.name] vars later ∧
      b.types <:+ a.types ∧ vars.length = a.arity ∧
      result.columns = a.columns ∧ result.params = mergeParams a.params b.params ∧
      em = .single result "suffix join"
        [⟨result.atomOf vars,
          [.positive (a.atomOf vars),
            .positive (b.atomOf (vars.drop (a.arity - b.arity)))]⟩] := by
  simp only [emitRangeRestrict, bind_eq_ok, lift_eq_ok, ensure_eq_ok, pure_eq_ok,
    List.isSuffixOf_iff_suffix] at h
  obtain ⟨_, _, ⟨hend, rfl⟩, vars, mid, hvars, name, _, hname, hem, rfl⟩ := h
  obtain ⟨hissued, hlength⟩ := freshVars_ok hvars
  exact ⟨⟨name, a.columns, mergeParams a.params b.params⟩, vars,
    by simpa using hissued.trans (freshRelation_ok hname), hend, hlength, rfl, rfl, hem.symm⟩

/-! ## Quantifiers and set operations -/

/-- What the two quantifiers have in common: a result without columns. -/
theorem emitQuantifier_ok {quantifier : Quantifier}
    (h : emitQuantifier quantifier a scope names = .ok (em, later)) :
    ∃ (result : Predicate) (rules : List Rule),
      Issued names [result.name] [] later ∧
      result.columns = [] ∧ result.params = a.params ∧
      em = .single result quantifier.symbol rules ∧
      match quantifier with
      | .some => rules = [⟨result.atom [], [.positive a.wildcardAtom]⟩]
      | .no => ∃ grounding, scope.ground a.params [] = .ok grounding ∧
          rules = [⟨result.atom [], .negated a.wildcardAtom :: grounding⟩] := by
  simp only [emitQuantifier, bind_eq_ok] at h
  obtain ⟨name, mid, hname, h⟩ := h
  refine ⟨⟨name, [], a.params⟩, ?_⟩
  cases quantifier with
  | some =>
      simp only [pure_eq_ok] at h
      obtain ⟨hem, rfl⟩ := h
      exact ⟨_, freshRelation_ok hname, rfl, rfl, hem.symm, rfl⟩
  | no =>
      simp only [bind_eq_ok, lift_eq_ok, pure_eq_ok] at h
      obtain ⟨grounding, _, ⟨hground, rfl⟩, hem, rfl⟩ := h
      exact ⟨_, freshRelation_ok hname, rfl, rfl, hem.symm, grounding, hground, rfl⟩

/-- What the three set operations have in common: the result, the variables of its columns and the
rules, which the operation picks. -/
theorem emitSetOperation_ok {operation : SetOp}
    (h : emitSetOperation operation a b scope names = .ok (em, later)) :
    ∃ (result : Predicate) (vars : List String) (rules : List Rule),
      Issued names [result.name] vars later ∧
      a.types = b.types ∧ vars.length = a.arity ∧
      result.columns = a.columns ∧ result.params = mergeParams a.params b.params ∧
      em = .single result operation.describe rules ∧
      match operation with
      | .union => ∃ forLeft forRight,
          scope.ground result.params a.params = .ok forLeft ∧
          scope.ground result.params b.params = .ok forRight ∧
          rules = [⟨result.atomOf vars, .positive (a.atomOf vars) :: forLeft⟩,
            ⟨result.atomOf vars, .positive (b.atomOf vars) :: forRight⟩]
      | .intersection =>
          rules = [⟨result.atomOf vars,
            [.positive (a.atomOf vars), .positive (b.atomOf vars)]⟩]
      | .difference => ∃ grounding,
          scope.ground result.params a.params = .ok grounding ∧
          rules = [⟨result.atomOf vars,
            .positive (a.atomOf vars) :: .negated (b.atomOf vars) :: grounding⟩] := by
  simp only [emitSetOperation, bind_eq_ok, lift_eq_ok, ensure_eq_ok, beq_iff_eq] at h
  obtain ⟨_, _, ⟨htypes, rfl⟩, name, mid, hname, vars, mid', hvars, h⟩ := h
  obtain ⟨hissued, hlength⟩ := freshVars_ok hvars
  have hstretch : Issued names [name] vars mid' := by
    simpa using (freshRelation_ok hname).trans hissued
  refine ⟨⟨name, a.columns, mergeParams a.params b.params⟩, vars, ?_⟩
  cases operation with
  | union =>
      simp only [bind_eq_ok, lift_eq_ok, pure_eq_ok] at h
      obtain ⟨forLeft, _, ⟨hleft, rfl⟩, forRight, _, ⟨hright, rfl⟩, hem, rfl⟩ := h
      exact ⟨_, hstretch, htypes, hlength, rfl, rfl, hem.symm, forLeft, forRight, hleft, hright,
        rfl⟩
  | intersection =>
      simp only [pure_eq_ok] at h
      obtain ⟨hem, rfl⟩ := h
      exact ⟨_, hstretch, htypes, hlength, rfl, rfl, hem.symm, rfl⟩
  | difference =>
      simp only [bind_eq_ok, lift_eq_ok, pure_eq_ok] at h
      obtain ⟨grounding, _, ⟨hground, rfl⟩, hem, rfl⟩ := h
      exact ⟨_, hstretch, htypes, hlength, rfl, rfl, hem.symm, grounding, hground, rfl⟩

/-! ## Relations of two columns -/

theorem emitClosure_ok (h : emitClosure a names = .ok (em, later)) :
    ∃ (result : Predicate) (source target middle : String) (type : ColumnType),
      Issued names [result.name] [source, target, middle] later ∧
      a.types = [type, type] ∧
      result.columns = a.columns ∧ result.params = a.params ∧
      em = .single result "transitive closure"
        [⟨result.atomOf [source, target], [.positive (a.atomOf [source, target])]⟩,
          ⟨result.atomOf [source, target],
            [.positive (result.atomOf [source, middle]),
              .positive (a.atomOf [middle, target])]⟩] := by
  simp only [emitClosure, ensureArity, bind_eq_ok, lift_eq_ok, ensure_eq_ok, beq_iff_eq] at h
  obtain ⟨_, _, ⟨harity, rfl⟩, h⟩ := h
  obtain ⟨first, second, htypes⟩ := List.length_eq_two.mp (a.length_types.trans harity)
  simp only [htypes, ensureType, bind_eq_ok, lift_eq_ok, ensure_eq_ok, pure_eq_ok,
    beq_iff_eq] at h
  obtain ⟨_, _, ⟨rfl, rfl⟩, name, mid, hname, vars, mid', hvars, middle, _, hmiddle, hem, rfl⟩ := h
  obtain ⟨hissued, hlength⟩ := freshVars_ok hvars
  obtain ⟨source, target, rfl⟩ := List.length_eq_two.mp (hlength.trans harity)
  exact ⟨⟨name, a.columns, a.params⟩, source, target, middle, second,
    by simpa using ((freshRelation_ok hname).trans hissued).trans (freshVar_ok hmiddle),
    htypes, rfl, rfl, hem.symm⟩

theorem emitTranspose_ok (h : emitTranspose a names = .ok (em, later)) :
    ∃ (result : Predicate) (source target : String),
      Issued names [result.name] [source, target] later ∧
      a.arity = 2 ∧ result.columns = a.columns.reverse ∧ result.params = a.params ∧
      em = .single result "transpose"
        [⟨result.atomOf [target, source], [.positive (a.atomOf [source, target])]⟩] := by
  simp only [emitTranspose, ensureArity, bind_eq_ok, lift_eq_ok, ensure_eq_ok, pure_eq_ok,
    beq_iff_eq] at h
  obtain ⟨_, _, ⟨harity, rfl⟩, name, mid, hname, vars, _, hvars, hem, rfl⟩ := h
  obtain ⟨hissued, hlength⟩ := freshVars_ok hvars
  obtain ⟨source, target, rfl⟩ := List.length_eq_two.mp (hlength.trans harity)
  exact ⟨⟨name, a.columns.reverse, a.params⟩, source, target,
    by simpa using (freshRelation_ok hname).trans hissued, harity, rfl, rfl, hem.symm⟩

/-! ## Counts and aggregates -/

theorem emitCount_ok (h : emitCount a scope names = .ok (em, later)) :
    ∃ (result : Predicate) (count : String) (grounding : List Literal),
      Issued names [result.name] [count] later ∧
      scope.ground a.params [] = .ok grounding ∧
      result.columns = [.named .number "cnt"] ∧ result.params = a.params ∧
      em = .single result "count"
        [⟨result.atomOf [count],
          .aggregate ⟨count, .count, none, a.wildcardAtom⟩ :: grounding⟩] := by
  simp only [emitCount, bind_eq_ok, lift_eq_ok, pure_eq_ok] at h
  obtain ⟨name, mid, hname, count, _, hcount, grounding, _, ⟨hground, rfl⟩, hem, rfl⟩ := h
  exact ⟨⟨name, [.named .number "cnt"], a.params⟩, count, grounding,
    by simpa using (freshRelation_ok hname).trans (freshVar_ok hcount), hground, rfl, rfl,
    hem.symm⟩

theorem emitAggregate_ok {function : NumericAggregate}
    (h : emitAggregate function a scope names = .ok (em, later)) :
    ∃ (result : Predicate) (value each : String) (grounding : List Literal),
      Issued names [result.name] [value, each] later ∧
      a.lastType? = some .number ∧
      scope.ground a.params [] = .ok grounding ∧
      result.columns = [.named .number function.symbol] ∧ result.params = a.params ∧
      em = .single result function.symbol
        [⟨result.atomOf [value],
          .aggregate ⟨value, aggregateFunction function, some each,
            a.atom (a.wildcards.dropLast ++ [.var each])⟩ :: grounding⟩] := by
  simp only [emitAggregate] at h
  cases hlast : a.lastType? with
  | none => simp [hlast, throw_eq_ok, bind_eq_ok] at h
  | some last =>
      simp only [hlast, ensureType, bind_eq_ok, lift_eq_ok, ensure_eq_ok, pure_eq_ok,
        beq_iff_eq] at h
      obtain ⟨_, _, ⟨rfl, rfl⟩, name, mid, hname, value, mid', hvalue, each, _, heach, grounding, _,
        ⟨hground, rfl⟩, hem, rfl⟩ := h
      have hstretch :=
        ((freshRelation_ok hname).trans (freshVar_ok hvalue)).trans (freshVar_ok heach)
      exact ⟨⟨name, [.named .number function.symbol], a.params⟩, value, each, grounding,
        by simpa using hstretch, rfl, hground, rfl, rfl, hem.symm⟩

/-! ## Literals, formulas, comparisons and arithmetic -/

theorem emitConstant_ok {constant : Constant}
    (h : emitConstant constant names = .ok (em, later)) :
    ∃ (result : Predicate) (value : String),
      Issued names [result.name] [value] later ∧
      result.columns = [.named (constantTerm constant).1 "val"] ∧ result.params = [] ∧
      em = .single result "literal"
        [⟨result.atomOf [value], [.assign value (.term (constantTerm constant).2)]⟩] := by
  simp only [emitConstant, bind_eq_ok, pure_eq_ok] at h
  obtain ⟨name, mid, hname, value, _, hvalue, hem, rfl⟩ := h
  exact ⟨⟨name, [.named (constantTerm constant).1 "val"], []⟩, value,
    by simpa using (freshRelation_ok hname).trans (freshVar_ok hvalue), rfl, rfl, hem.symm⟩

theorem emitFormula_ok {text : String} (h : emitFormula text scope names = .ok (em, later)) :
    ∃ (result : Predicate) (value : String) (grounding : List Literal),
      Issued names [result.name] [value] later ∧
      scope.ground scope.scalarNames [] = .ok grounding ∧
      result.columns = [.named .number "val"] ∧ result.params = scope.scalarNames ∧
      em = .single result "formula"
        [⟨result.atomOf [value],
          grounding ++ [.assign value (.raw (renameScalars scope text))]⟩] := by
  simp only [emitFormula, bind_eq_ok, lift_eq_ok, pure_eq_ok] at h
  obtain ⟨name, mid, hname, value, _, hvalue, grounding, _, ⟨hground, rfl⟩, hem, rfl⟩ := h
  exact ⟨⟨name, [.named .number "val"], scope.scalarNames⟩, value, grounding,
    by simpa using (freshRelation_ok hname).trans (freshVar_ok hvalue), hground, rfl, rfl,
    hem.symm⟩

theorem scalarType_eq_ok {subject : String} {type : ColumnType} :
    scalarType subject a = .ok type ↔ a.types = [type] := by
  unfold scalarType
  split
  · rename_i only htypes
    simp [htypes]
  · rename_i hother
    constructor
    · intro h
      cases h
    · intro htypes
      exact (hother type htypes).elim

theorem scalarTypes_eq_ok {types : ColumnType × ColumnType} :
    scalarTypes a b = .ok types ↔ a.types = [types.1] ∧ b.types = [types.2] := by
  obtain ⟨left, right⟩ := types
  unfold scalarTypes
  cases hleft : scalarType "Left-hand side of scalar operator" a with
  | error cause =>
      have hne : a.types ≠ [left] := by
        intro htypes
        rw [scalarType_eq_ok.mpr htypes] at hleft
        cases hleft
      simp [bind, Except.bind, hne]
  | ok left' =>
      have htypes := scalarType_eq_ok.mp hleft
      cases hright : scalarType "Right-hand side of scalar operator" b with
      | error cause =>
          have hne : b.types ≠ [right] := by
            intro htypes'
            rw [scalarType_eq_ok.mpr htypes'] at hright
            cases hright
          simp [bind, Except.bind, hne]
      | ok right' =>
          have htypes' := scalarType_eq_ok.mp hright
          simp [bind, Except.bind, pure, Except.pure, htypes, htypes']

theorem emitComparison_ok {comparison : Comparison}
    (h : emitComparison comparison a b names = .ok (em, later)) :
    ∃ (result : Predicate) (lhs rhs : String) (type : ColumnType),
      Issued names [result.name] [lhs, rhs] later ∧
      a.types = [type] ∧ b.types = [type] ∧ (comparison.isOrdering = true → type = .number) ∧
      result.columns = [] ∧ result.params = mergeParams a.params b.params ∧
      em = .single result "comparison"
        [⟨result.atom [],
          [.positive (a.atomOf [lhs]), .positive (b.atomOf [rhs]),
            .constraint (.term (.var lhs)) comparison (.term (.var rhs))]⟩] := by
  simp only [emitComparison, ensureType, bind_eq_ok, lift_eq_ok, ensure_eq_ok, pure_eq_ok,
    scalarTypes_eq_ok, beq_iff_eq] at h
  obtain ⟨⟨left, right⟩, _, ⟨⟨hleft, hright⟩, rfl⟩, h⟩ := h
  dsimp only at hleft hright h
  obtain ⟨_, _, ⟨rfl, rfl⟩, _, _, ⟨hordering, rfl⟩, name, mid, hname, lhs, mid', hlhs, rhs, _, hrhs,
    hem, rfl⟩ := h
  have hstretch := ((freshRelation_ok hname).trans (freshVar_ok hlhs)).trans (freshVar_ok hrhs)
  refine ⟨⟨name, [], mergeParams a.params b.params⟩, lhs, rhs, right, by simpa using hstretch,
    hleft, hright, ?_, rfl, rfl, hem.symm⟩
  intro hord
  simpa [hord] using hordering

theorem emitArithmetic_ok {operation : Arithmetic}
    (h : emitArithmetic operation a b names = .ok (em, later)) :
    ∃ (result : Predicate) (lhs rhs value : String),
      Issued names [result.name] [lhs, rhs, value] later ∧
      a.types = [.number] ∧ b.types = [.number] ∧
      result.columns = [.named .number "val"] ∧
      result.params = mergeParams a.params b.params ∧
      em = .single result "arithmetic"
        [⟨result.atomOf [value],
          [.positive (a.atomOf [lhs]), .positive (b.atomOf [rhs]),
            .assign value
              (.binary (arithOp operation) (.term (.var lhs)) (.term (.var rhs)))]⟩] := by
  simp only [emitArithmetic, ensureType, bind_eq_ok, lift_eq_ok, ensure_eq_ok, pure_eq_ok,
    scalarTypes_eq_ok, beq_iff_eq] at h
  obtain ⟨⟨left, right⟩, _, ⟨⟨hleft, hright⟩, rfl⟩, h⟩ := h
  dsimp only at hleft hright h
  obtain ⟨_, _, ⟨rfl, rfl⟩, _, _, ⟨rfl, rfl⟩, name, mid, hname, lhs, mid', hlhs, rhs, mid'', hrhs,
    value, _, hvalue, hem, rfl⟩ := h
  have hstretch := (((freshRelation_ok hname).trans (freshVar_ok hlhs)).trans
    (freshVar_ok hrhs)).trans (freshVar_ok hvalue)
  exact ⟨⟨name, [.named .number "val"], mergeParams a.params b.params⟩, lhs, rhs, value,
    by simpa using hstretch, hleft, hright, rfl, rfl, hem.symm⟩

/-! ## Ranks and concatenation -/

theorem rank_ok {d : Definition} (h : rank a names = .ok (d, later)) :
    ∃ (ranked : Predicate) (vars : List String) (previous next : String),
      Issued names [ranked.name] (vars ++ [previous, next]) later ∧
      a.arity ≠ 0 ∧ vars.length = a.arity ∧
      ranked.columns = .named .number "idx" :: a.columns ∧ ranked.params = a.params ∧
      d = {
        predicate := ranked
        label := "index"
        choiceDomains :=
          [ranked.attributeNames.tail,
            ranked.attributeNames.take 1 ++ a.params.map paramVar]
        rules := [
          ⟨ranked.atom (.number 0 :: vars.map .var), [.positive (a.atomOf vars)]⟩,
          ⟨ranked.atomOf (next :: vars),
            [.positive (ranked.atom (.var previous :: a.wildcards)), .positive (a.atomOf vars),
              .assign next (successor previous)]⟩] } := by
  simp only [rank, ensureColumn, bind_eq_ok, lift_eq_ok, ensure_eq_ok, bne_iff_ne,
    pure_eq_ok] at h
  obtain ⟨_, _, ⟨hcolumn, rfl⟩, name, mid, hname, vars, mid', hvars, previous, mid'', hprevious,
    next, _, hnext, hd, rfl⟩ := h
  obtain ⟨hissued, hlength⟩ := freshVars_ok hvars
  have hstretch := (((freshRelation_ok hname).trans hissued).trans
    (freshVar_ok hprevious)).trans (freshVar_ok hnext)
  exact ⟨⟨name, .named .number "idx" :: a.columns, a.params⟩, vars, previous, next,
    by simpa using hstretch, hcolumn, hlength, rfl, rfl, hd.symm⟩

theorem emitIndex_ok (h : emitIndex a names = .ok (em, later)) :
    ∃ ranked, rank a names = .ok (ranked, later) ∧ em = ⟨[], ranked⟩ := by
  simp only [emitIndex, bind_eq_ok, pure_eq_ok] at h
  obtain ⟨ranked, _, hranked, hem, rfl⟩ := h
  exact ⟨ranked, hranked, hem.symm⟩

theorem accumulator_ok {ranked : Predicate} {d : Definition}
    (h : accumulator a ranked names = .ok (d, later)) :
    ∃ (sums : Predicate) (first previousRank previousSum rank text sum : String),
      Issued names [sums.name] [first, previousRank, previousSum, rank, text, sum] later ∧
      sums.columns = [.named .number "idx", .named .symbol "acc"] ∧ sums.params = a.params ∧
      d = {
        predicate := sums
        label := "concat accumulator"
        choiceDomains := []
        rules := [
          ⟨sums.atom [.number 0, .var first],
            [.positive (ranked.atom (.number 0 :: a.wildcards.dropLast ++ [.var first]))]⟩,
          ⟨sums.atomOf [rank, sum],
            [.positive (sums.atomOf [previousRank, previousSum]),
              .positive (ranked.atom (.var rank :: a.wildcards.dropLast ++ [.var text])),
              .assign rank (successor previousRank),
              .assign sum (.cat [.term (.var previousSum), .term (.symbol separator),
                .term (.var text)])]⟩] } := by
  simp only [accumulator, bind_eq_ok, pure_eq_ok] at h
  obtain ⟨name, mid₁, hname, first, mid₂, hfirst, previousRank, mid₃, hpreviousRank, previousSum,
    mid₄, hpreviousSum, rank, mid₅, hrank, text, mid₆, htext, sum, _, hsum, hd, rfl⟩ := h
  have hstretch := ((((((freshRelation_ok hname).trans (freshVar_ok hfirst)).trans
    (freshVar_ok hpreviousRank)).trans (freshVar_ok hpreviousSum)).trans
    (freshVar_ok hrank)).trans (freshVar_ok htext)).trans (freshVar_ok hsum)
  exact ⟨⟨name, [.named .number "idx", .named .symbol "acc"], a.params⟩, first, previousRank,
    previousSum, rank, text, sum, by simpa using hstretch, rfl, rfl, hd.symm⟩

theorem highestRank_ok {ranked : Predicate} {d : Definition}
    (h : highestRank a ranked names = .ok (d, later)) :
    ∃ (top : Predicate) (highest each : String),
      Issued names [top.name] [highest, each] later ∧
      top.columns = [.named .number "top"] ∧ top.params = a.params ∧
      d = {
        predicate := top
        label := "concat top index"
        choiceDomains := []
        rules := [
          ⟨top.atomOf [highest],
            [.positive ranked.wildcardAtom,
              .aggregate ⟨highest, .max, some each,
                ranked.atom (.var each :: a.wildcards)⟩]⟩] } := by
  simp only [highestRank, bind_eq_ok, pure_eq_ok] at h
  obtain ⟨name, mid, hname, highest, mid', hhighest, each, _, heach, hd, rfl⟩ := h
  have hstretch :=
    ((freshRelation_ok hname).trans (freshVar_ok hhighest)).trans (freshVar_ok heach)
  exact ⟨⟨name, [.named .number "top"], a.params⟩, highest, each, by simpa using hstretch, rfl,
    rfl, hd.symm⟩

theorem concatenated_ok {sums top : Predicate} {d : Definition}
    (h : concatenated sums top names = .ok (d, later)) :
    ∃ (result : Predicate) (highest text : String),
      Issued names [result.name] [highest, text] later ∧
      result.columns = [.named .symbol "concat"] ∧ result.params = sums.params ∧
      d = {
        predicate := result
        label := "concat"
        choiceDomains := []
        rules := [
          ⟨result.atomOf [text],
            [.positive (top.atomOf [highest]), .positive (sums.atomOf [highest, text])]⟩] } := by
  simp only [concatenated, bind_eq_ok, pure_eq_ok] at h
  obtain ⟨name, mid, hname, highest, mid', hhighest, text, _, htext, hd, rfl⟩ := h
  have hstretch :=
    ((freshRelation_ok hname).trans (freshVar_ok hhighest)).trans (freshVar_ok htext)
  exact ⟨⟨name, [.named .symbol "concat"], sums.params⟩, highest, text, by simpa using hstretch,
    rfl, rfl, hd.symm⟩

theorem emitConcat_ok (h : emitConcat a names = .ok (em, later)) :
    ∃ ranked sums top result mid₁ mid₂ mid₃,
      a.lastType? = some .symbol ∧
      rank a names = .ok (ranked, mid₁) ∧
      accumulator a ranked.predicate mid₁ = .ok (sums, mid₂) ∧
      highestRank a ranked.predicate mid₂ = .ok (top, mid₃) ∧
      concatenated sums.predicate top.predicate mid₃ = .ok (result, later) ∧
      em = ⟨[ranked, sums, top], result⟩ := by
  simp only [emitConcat] at h
  cases hlast : a.lastType? with
  | none => simp [hlast, throw_eq_ok, bind_eq_ok] at h
  | some last =>
      simp only [hlast, ensureType, bind_eq_ok, lift_eq_ok, ensure_eq_ok, pure_eq_ok,
        beq_iff_eq] at h
      obtain ⟨_, _, ⟨rfl, rfl⟩, ranked, mid₁, hranked, sums, mid₂, hsums, top, mid₃, htop, result,
        _, hresult, hem, rfl⟩ := h
      exact ⟨ranked, sums, top, result, mid₁, mid₂, mid₃, rfl, hranked, hsums, htop, hresult,
        hem.symm⟩

/-! ## Names and comprehensions -/

theorem emitScalar_ok {scalar : String} {binding : ScalarBinding}
    (h : emitScalar scalar binding names = .ok (em, later)) :
    ∃ result : Predicate,
      Issued names [result.name] [] later ∧
      result.columns = [.named binding.type scalar] ∧
      result.params = mergeParams [scalar] binding.params ∧
      em = .single result "identifier"
        [⟨result.atomOf [paramVar scalar], [.positive binding.constraint]⟩] := by
  simp only [emitScalar, bind_eq_ok, pure_eq_ok] at h
  obtain ⟨name, _, hname, hem, rfl⟩ := h
  exact ⟨⟨name, [.named binding.type scalar], mergeParams [scalar] binding.params⟩,
    freshRelation_ok hname, rfl, rfl, hem.symm⟩

/-- The variables that a comprehension puts before those of its body. -/
def keptVars (style : Style) (scalars : List String) : List String :=
  match style with
  | .keep => scalars.map paramVar
  | .image => []

theorem emitComprehension_ok {style : Style} {scalars : List String}
    {constraint body : Predicate}
    (h : emitComprehension style scalars constraint body names = .ok (em, later)) :
    ∃ (result : Predicate) (vars : List String),
      Issued names [result.name] vars later ∧
      vars.length = body.arity ∧
      result.columns = variableColumns style scalars constraint ++ body.columns ∧
      result.params = mergeParams (body.params.filter fun param => !scalars.contains param)
        constraint.params ∧
      em = .single result (comprehensionLabel style)
        [⟨result.atomOf (keptVars style scalars ++ vars),
          [.positive (body.atomOf vars),
            .positive (constraint.atomOf (scalars.map paramVar))]⟩] := by
  simp only [emitComprehension, bind_eq_ok, pure_eq_ok] at h
  obtain ⟨vars, mid, hvars, name, _, hname, hem, rfl⟩ := h
  obtain ⟨hissued, hlength⟩ := freshVars_ok hvars
  exact ⟨⟨name, variableColumns style scalars constraint ++ body.columns,
      mergeParams (body.params.filter fun param => !scalars.contains param)
        constraint.params⟩, vars,
    by simpa using hissued.trans (freshRelation_ok hname), hlength, rfl, rfl, hem.symm⟩

end RelQuery.Compile
