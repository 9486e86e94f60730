import RelQuery.Proofs.Compile.Derivation
import RelQuery.Proofs.Datalog.Renaming
import RelQuery.Proofs.Schema.Renumbering
import RelQuery.Proofs.Typing.Inference

/-!
# Emissions from supplies in step

The compiler does not look at the names of relations.  So if the predicates it is given are renamed
and its supply of fresh names is in step with another one, it takes the same decisions and emits the
same definitions under other names, or fails for the same cause.

There is one lemma for each operator here.  It follows the steps of the emission, and each step is
one of a few: a check, a draw from the supply, the grounding of parameters, or the result.
-/

namespace RelQuery

open Datalog (Atom Command Literal Rule)

/-! ## Renamed predicates and scopes -/

def Predicate.rename (ρ : String → String) (p : Predicate) : Predicate :=
  { p with name := ρ p.name }

def ScalarBinding.rename (ρ : String → String) (s : ScalarBinding) : ScalarBinding :=
  { s with constraint := s.constraint.rename ρ }

@[simp] theorem ScalarBinding.params_rename (ρ : String → String) (s : ScalarBinding) :
    (s.rename ρ).params = s.params :=
  rfl

def Binding.rename (ρ : String → String) : Binding → Binding
  | scalar s => .scalar (s.rename ρ)
  | relation p => .relation (p.rename ρ)

/-- The cause of a failure; only an internal one names a relation. -/
def Cause.rename (ρ : String → String) : Cause → Cause
  | unscoped param relation => .unscoped param (ρ relation)
  | cause => cause

theorem Cause.rename_of_not_internal (ρ : String → String) {cause : Cause}
    (h : cause.isInternal = false) : cause.rename ρ = cause := by
  cases cause <;> first | rfl | cases h

def Compiled.rename (ρ : String → String) (c : Compiled) : Compiled :=
  ⟨c.predicate.rename ρ, c.program.rename ρ⟩

/-- Two scopes that stand for the same, under another name of each relation, except that the second
has more relations. -/
structure Scope.Extends (ρ : String → String) (extra : List String) (scope scope' : Scope) :
    Prop where
  lookup : ∀ x, x ∉ extra → scope'.lookup x = (scope.lookup x).map (Binding.rename ρ)
  scalar : ∀ x, scope'.scalar? x = (scope.scalar? x).map (ScalarBinding.rename ρ)
  scalarNames : scope'.scalarNames = scope.scalarNames

namespace Compile

def Definition.rename (ρ : String → String) (d : Definition) : Definition :=
  ⟨d.predicate.rename ρ, d.label, d.choiceDomains, d.rules.map (Rule.rename ρ)⟩

def Emission.rename (ρ : String → String) (em : Emission) : Emission :=
  ⟨em.auxiliary.map (Definition.rename ρ), em.result.rename ρ⟩

/-! ## Runs in parallel -/

section Parallel

variable {ε α β : Type}

/-- Two outcomes that correspond. -/
inductive Parallel (S : FreshNames → FreshNames → Prop) (E : ε → ε → Prop) (R : α → α → Prop) :
    Except ε (α × FreshNames) → Except ε (α × FreshNames) → Prop where
  | ok {x x' : α} {names names' : FreshNames} (result : R x x') (supplies : S names names') :
      Parallel S E R (.ok (x, names)) (.ok (x', names'))
  | error {err err' : ε} (failure : E err err') : Parallel S E R (.error err) (.error err')

/-- Two computations with corresponding outcomes from all supplies that correspond. -/
def Runs (S : FreshNames → FreshNames → Prop) (E : ε → ε → Prop) (R : α → α → Prop)
    (m m' : StateT FreshNames (Except ε) α) : Prop :=
  ∀ ⦃names names' : FreshNames⦄, S names names' → Parallel S E R (m names) (m' names')

variable {S : FreshNames → FreshNames → Prop} {E : ε → ε → Prop} {R : α → α → Prop}
variable {Q : β → β → Prop} {m m' : StateT FreshNames (Except ε) α}
variable {next next' : α → StateT FreshNames (Except ε) β}

theorem Runs.bind (h : Runs S E R m m')
    (hnext : ∀ x x', R x x' → Runs S E Q (next x) (next' x')) :
    Runs S E Q (m >>= next) (m' >>= next') := by
  intro names names' hnames
  have hrun := h hnames
  generalize hm : m names = r at hrun
  generalize hm' : m' names' = r' at hrun
  cases hrun with
  | ok hx hlater =>
      rw [bind_of_ok hm, bind_of_ok hm']
      exact hnext _ _ hx hlater
  | error hfailure =>
      rw [bind_of_error hm, bind_of_error hm']
      exact .error hfailure

theorem runs_pure {x x' : α} (h : R x x') : Runs S E R (pure x) (pure x') :=
  fun _ _ hnames => .ok h hnames

theorem runs_throw {err err' : ε} (h : E err err') :
    Runs S E R (throw err : StateT FreshNames (Except ε) α) (throw err') :=
  fun _ _ _ => .error h

end Parallel

/-! ## Steps of an emission -/

/-- The same cause under other names of relations. -/
def SameCause (ρ : String → String) (cause cause' : Cause) : Prop :=
  cause' = cause.rename ρ

/-- Supplies that correspond give out names that correspond. -/
structure Supplies (ρ : String → String) (S : FreshNames → FreshNames → Prop) : Prop where
  relation : ∀ {names names' : FreshNames}, S names names' →
    (∃ n, names.relation.1 = FreshNames.relationName n) ∧
      names'.relation.1 = ρ names.relation.1 ∧ S names.relation.2 names'.relation.2
  var : ∀ {names names' : FreshNames}, S names names' → ∀ stem,
    (names'.var stem).1 = (names.var stem).1 ∧ S (names.var stem).2 (names'.var stem).2
  vars : ∀ {names names' : FreshNames}, S names names' → ∀ stems,
    (names'.vars stems).1 = (names.vars stems).1 ∧ S (names.vars stems).2 (names'.vars stems).2

theorem supplies_inStep (reserved reserved' : List String) :
    Supplies (FreshNames.renumber reserved reserved') (FreshNames.InStep reserved reserved') :=
  ⟨FreshNames.InStep.relation, FreshNames.InStep.var, FreshNames.InStep.vars⟩

theorem colon_notMem_relationName (n : Nat) : ':' ∉ (FreshNames.relationName n).toList := by
  intro h
  have hdigits : ':' ∈ Nat.toDigits 10 n := by
    simpa [FreshNames.relationName] using h
  exact absurd (Nat.isDigit_of_mem_toDigits (by decide) (by decide) hdigits) (by decide)

/-- A definition under another name, which can be told from the rest of a comment. -/
structure Definition.Renamed (ρ : String → String) (d d' : Definition) : Prop where
  eq_rename : d' = d.rename ρ
  colon : ':' ∉ d.predicate.name.toList

/-- An emission under other names, each of which can be told from the rest of a comment. -/
structure Emission.Renamed (ρ : String → String) (em em' : Emission) : Prop where
  eq_rename : em' = em.rename ρ
  colon : ∀ d ∈ em.definitions, ':' ∉ d.predicate.name.toList

section Steps

variable {α β : Type} {ρ : String → String} {S : FreshNames → FreshNames → Prop}
variable {Q : β → β → Prop}

/-- A part without fresh names whose failures name the relations of a scope at most. -/
theorem runs_lift {m m' : Except Cause α} {f : α → α}
    (h : m' = (m.map f).mapError (Cause.rename ρ)) :
    Runs S (SameCause ρ) (fun x x' => x' = f x) (liftM m : Emit α) (liftM m') := by
  intro names names' hnames
  subst h
  cases m with
  | ok x => exact .ok rfl hnames
  | error cause => exact .error rfl

/-- A check that does not depend on names. -/
theorem runs_check {m : Except Cause α} (hm : Avoids Cause.isInternal m) :
    Runs S (SameCause ρ) (fun x x' => x' = x) (liftM m : Emit α) (liftM m) := by
  apply runs_lift (f := id)
  cases hrun : m with
  | ok x => rfl
  | error cause => exact congrArg Except.error (Cause.rename_of_not_internal ρ (hm cause hrun)).symm

theorem Runs.check {m : Except Cause α} {next next' : α → Emit β}
    (hm : Avoids Cause.isInternal m)
    (hnext : ∀ x, Runs S (SameCause ρ) Q (next x) (next' x)) :
    Runs S (SameCause ρ) Q (liftM m >>= next) (liftM m >>= next') := by
  refine (runs_check hm).bind ?_
  rintro x _ rfl
  exact hnext _

theorem Runs.freshRelation (hS : Supplies ρ S) {next next' : String → Emit β}
    (hnext : ∀ name, ':' ∉ name.toList →
      Runs S (SameCause ρ) Q (next name) (next' (ρ name))) :
    Runs S (SameCause ρ) Q (Compile.freshRelation >>= next) (Compile.freshRelation >>= next') := by
  refine Runs.bind (R := fun name name' => ':' ∉ name.toList ∧ name' = ρ name) ?_ ?_
  · intro names names' hnames
    obtain ⟨⟨n, hn⟩, hname, hlater⟩ := hS.relation hnames
    have hcolon : ':' ∉ names.relation.1.toList := by
      rw [hn]
      exact colon_notMem_relationName n
    exact .ok ⟨hcolon, hname⟩ hlater
  · rintro name _ ⟨hcolon, rfl⟩
    exact hnext name hcolon

theorem Runs.freshVar (hS : Supplies ρ S) {stem : String} {next next' : String → Emit β}
    (hnext : ∀ v, Runs S (SameCause ρ) Q (next v) (next' v)) :
    Runs S (SameCause ρ) Q (Compile.freshVar stem >>= next) (Compile.freshVar stem >>= next') := by
  refine Runs.bind (R := Eq) ?_ ?_
  · intro names names' hnames
    obtain ⟨hv, hlater⟩ := hS.var hnames stem
    exact .ok hv.symm hlater
  · rintro v _ rfl
    exact hnext v

theorem Runs.freshVars (hS : Supplies ρ S) {columns : List Column}
    {next next' : List String → Emit β}
    (hnext : ∀ vars, Runs S (SameCause ρ) Q (next vars) (next' vars)) :
    Runs S (SameCause ρ) Q (Compile.freshVars columns >>= next)
      (Compile.freshVars columns >>= next') := by
  refine Runs.bind (R := Eq) ?_ ?_
  · intro names names' hnames
    obtain ⟨hvars, hlater⟩ := hS.vars hnames (columns.map (·.stem))
    exact .ok hvars.symm hlater
  · rintro vars _ rfl
    exact hnext vars

theorem ground_of_extends {extra : List String} {scope scope' : Scope}
    (h : scope.Extends ρ extra scope') (params bound : List String) :
    scope'.ground params bound =
      ((scope.ground params bound).map (List.map (Literal.rename ρ))).mapError
        (Cause.rename ρ) := by
  induction params generalizing bound with
  | nil => rfl
  | cons x rest ih =>
      rw [Scope.ground, Scope.ground, h.scalar x]
      split
      · exact ih bound
      · cases scope.scalar? x with
        | none => rfl
        | some s =>
            simp only [Option.map_some, ih, ScalarBinding.params_rename]
            cases scope.ground rest (x :: s.params ++ bound) <;> rfl

theorem Runs.ground {extra : List String} {scope scope' : Scope}
    (h : scope.Extends ρ extra scope') {params bound : List String}
    {next next' : List Literal → Emit β}
    (hnext : ∀ literals,
      Runs S (SameCause ρ) Q (next literals) (next' (literals.map (Literal.rename ρ)))) :
    Runs S (SameCause ρ) Q (liftM (scope.ground params bound) >>= next)
      (liftM (scope'.ground params bound) >>= next') := by
  refine (runs_lift (ground_of_extends h params bound)).bind ?_
  rintro literals _ rfl
  exact hnext literals

theorem runs_single {p : Predicate} {label : String} {rules rules' : List Rule}
    (hcolon : ':' ∉ p.name.toList) (hrules : rules' = rules.map (Rule.rename ρ)) :
    Runs S (SameCause ρ) (Emission.Renamed ρ) (pure (.single p label rules) : Emit Emission)
      (pure (.single (p.rename ρ) label rules')) := by
  refine runs_pure ⟨?_, ?_⟩
  · rw [hrules]
    rfl
  · intro d hd
    rw [Emission.predicate_of_mem_single hd]
    exact hcolon

end Steps

/-! ## Operators -/

section Operators

variable {ρ : String → String} {S : FreshNames → FreshNames → Prop} (hS : Supplies ρ S)

include hS

theorem runs_join (a b : Predicate) :
    Runs S (SameCause ρ) (Emission.Renamed ρ) (emitJoin a b)
      (emitJoin (a.rename ρ) (b.rename ρ)) := by
  refine Runs.check (avoids_ensure rfl) fun _ => ?_
  refine Runs.check (avoids_ensure rfl) fun _ => ?_
  rw [show (a.rename ρ).lastType? = a.lastType? from rfl,
    show (b.rename ρ).firstType? = b.firstType? from rfl]
  rcases a.lastType? with _ | last <;> rcases b.firstType? with _ | first
  case' some.some => refine Runs.check (avoids_ensure rfl) fun _ => ?_
  all_goals
    refine Runs.freshVars hS fun left => ?_
    refine Runs.freshVars hS fun right => ?_
    refine Runs.freshRelation hS fun name hname => ?_
    exact runs_single hname rfl

theorem runs_dropLast (a : Predicate) :
    Runs S (SameCause ρ) (Emission.Renamed ρ) (emitDropLast a) (emitDropLast (a.rename ρ)) := by
  refine Runs.check (avoids_ensure rfl) fun _ => ?_
  refine Runs.freshVars hS fun vars => ?_
  refine Runs.freshRelation hS fun name hname => ?_
  exact runs_single hname rfl

theorem runs_dropFirst (a : Predicate) :
    Runs S (SameCause ρ) (Emission.Renamed ρ) (emitDropFirst a) (emitDropFirst (a.rename ρ)) := by
  refine Runs.check (avoids_ensure rfl) fun _ => ?_
  refine Runs.freshVars hS fun vars => ?_
  refine Runs.freshRelation hS fun name hname => ?_
  exact runs_single hname rfl

theorem runs_product (a b : Predicate) :
    Runs S (SameCause ρ) (Emission.Renamed ρ) (emitProduct a b)
      (emitProduct (a.rename ρ) (b.rename ρ)) := by
  refine Runs.freshVars hS fun left => ?_
  refine Runs.freshVars hS fun right => ?_
  refine Runs.freshRelation hS fun name hname => ?_
  exact runs_single hname rfl

theorem runs_apply (a b : Predicate) :
    Runs S (SameCause ρ) (Emission.Renamed ρ) (emitApply a b)
      (emitApply (a.rename ρ) (b.rename ρ)) := by
  refine Runs.check (avoids_ensure rfl) fun _ => ?_
  refine Runs.freshVars hS fun vars => ?_
  refine Runs.freshRelation hS fun name hname => ?_
  exact runs_single hname rfl

theorem runs_domainRestrict (a b : Predicate) :
    Runs S (SameCause ρ) (Emission.Renamed ρ) (emitDomainRestrict a b)
      (emitDomainRestrict (a.rename ρ) (b.rename ρ)) := by
  refine Runs.check (avoids_ensure rfl) fun _ => ?_
  refine Runs.freshVars hS fun vars => ?_
  refine Runs.freshRelation hS fun name hname => ?_
  exact runs_single hname rfl

theorem runs_rangeRestrict (a b : Predicate) :
    Runs S (SameCause ρ) (Emission.Renamed ρ) (emitRangeRestrict a b)
      (emitRangeRestrict (a.rename ρ) (b.rename ρ)) := by
  refine Runs.check (avoids_ensure rfl) fun _ => ?_
  refine Runs.freshVars hS fun vars => ?_
  refine Runs.freshRelation hS fun name hname => ?_
  exact runs_single hname rfl

theorem runs_closure (a : Predicate) :
    Runs S (SameCause ρ) (Emission.Renamed ρ) (emitClosure a) (emitClosure (a.rename ρ)) := by
  refine Runs.check (avoids_ensure rfl) fun _ => ?_
  rw [show (a.rename ρ).types = a.types from rfl]
  split
  case' h_1 => refine Runs.check (avoids_ensure rfl) fun _ => ?_
  all_goals
    refine Runs.freshRelation hS fun name hname => ?_
    refine Runs.freshVars hS fun vars => ?_
    refine Runs.freshVar hS fun middle => ?_
    exact runs_single hname rfl

theorem runs_transpose (a : Predicate) :
    Runs S (SameCause ρ) (Emission.Renamed ρ) (emitTranspose a) (emitTranspose (a.rename ρ)) := by
  refine Runs.check (avoids_ensure rfl) fun _ => ?_
  refine Runs.freshRelation hS fun name hname => ?_
  refine Runs.freshVars hS fun vars => ?_
  exact runs_single hname rfl

theorem runs_constant (constant : Constant) :
    Runs S (SameCause ρ) (Emission.Renamed ρ) (emitConstant constant) (emitConstant constant) := by
  refine Runs.freshRelation hS fun name hname => ?_
  refine Runs.freshVar hS fun value => ?_
  exact runs_single hname rfl

theorem runs_scalar (scalar : String) (binding : ScalarBinding) :
    Runs S (SameCause ρ) (Emission.Renamed ρ) (emitScalar scalar binding)
      (emitScalar scalar (binding.rename ρ)) := by
  refine Runs.freshRelation hS fun name hname => ?_
  exact runs_single hname rfl

omit hS in
theorem avoids_scalarTypes (a b : Predicate) : Avoids Cause.isInternal (scalarTypes a b) := by
  have htype : ∀ subject p, Avoids Cause.isInternal (scalarType subject p) := by
    intro subject p
    unfold scalarType
    split
    · exact avoids_ok _
    · exact avoids_error rfl
  exact (htype _ a).bind fun _ => (htype _ b).bind fun _ => avoids_ok _

theorem runs_comparison (comparison : Comparison) (a b : Predicate) :
    Runs S (SameCause ρ) (Emission.Renamed ρ) (emitComparison comparison a b)
      (emitComparison comparison (a.rename ρ) (b.rename ρ)) := by
  refine Runs.check (avoids_scalarTypes a b) fun types => ?_
  refine Runs.check (avoids_ensure rfl) fun _ => ?_
  refine Runs.check (avoids_ensure rfl) fun _ => ?_
  refine Runs.freshRelation hS fun name hname => ?_
  refine Runs.freshVar hS fun lhs => ?_
  refine Runs.freshVar hS fun rhs => ?_
  exact runs_single hname rfl

theorem runs_arithmetic (operation : Arithmetic) (a b : Predicate) :
    Runs S (SameCause ρ) (Emission.Renamed ρ) (emitArithmetic operation a b)
      (emitArithmetic operation (a.rename ρ) (b.rename ρ)) := by
  refine Runs.check (avoids_scalarTypes a b) fun types => ?_
  refine Runs.check (avoids_ensure rfl) fun _ => ?_
  refine Runs.check (avoids_ensure rfl) fun _ => ?_
  refine Runs.freshRelation hS fun name hname => ?_
  refine Runs.freshVar hS fun lhs => ?_
  refine Runs.freshVar hS fun rhs => ?_
  refine Runs.freshVar hS fun value => ?_
  exact runs_single hname rfl

theorem runs_comprehension (style : Style) (scalars : List String) (constraint body : Predicate) :
    Runs S (SameCause ρ) (Emission.Renamed ρ) (emitComprehension style scalars constraint body)
      (emitComprehension style scalars (constraint.rename ρ) (body.rename ρ)) := by
  refine Runs.freshVars hS fun vars => ?_
  refine Runs.freshRelation hS fun name hname => ?_
  exact runs_single hname rfl

/-! ### Ranks and concatenation -/

theorem runs_rank (a : Predicate) :
    Runs S (SameCause ρ) (Definition.Renamed ρ) (rank a) (rank (a.rename ρ)) := by
  refine Runs.check (avoids_ensure rfl) fun _ => ?_
  refine Runs.freshRelation hS fun name hname => ?_
  refine Runs.freshVars hS fun vars => ?_
  refine Runs.freshVar hS fun previous => ?_
  refine Runs.freshVar hS fun next => ?_
  exact runs_pure ⟨rfl, hname⟩

theorem runs_index (a : Predicate) :
    Runs S (SameCause ρ) (Emission.Renamed ρ) (emitIndex a) (emitIndex (a.rename ρ)) := by
  refine (runs_rank hS a).bind ?_
  rintro ranked _ ⟨rfl, hname⟩
  refine runs_pure ⟨rfl, ?_⟩
  simpa [Emission.definitions] using hname

theorem runs_accumulator (a ranked : Predicate) :
    Runs S (SameCause ρ) (Definition.Renamed ρ) (accumulator a ranked)
      (accumulator (a.rename ρ) (ranked.rename ρ)) := by
  refine Runs.freshRelation hS fun name hname => ?_
  refine Runs.freshVar hS fun first => ?_
  refine Runs.freshVar hS fun previousRank => ?_
  refine Runs.freshVar hS fun previousSum => ?_
  refine Runs.freshVar hS fun rank => ?_
  refine Runs.freshVar hS fun text => ?_
  refine Runs.freshVar hS fun sum => ?_
  exact runs_pure ⟨rfl, hname⟩

theorem runs_highestRank (a ranked : Predicate) :
    Runs S (SameCause ρ) (Definition.Renamed ρ) (highestRank a ranked)
      (highestRank (a.rename ρ) (ranked.rename ρ)) := by
  refine Runs.freshRelation hS fun name hname => ?_
  refine Runs.freshVar hS fun highest => ?_
  refine Runs.freshVar hS fun each => ?_
  exact runs_pure ⟨rfl, hname⟩

theorem runs_concatenated (sums top : Predicate) :
    Runs S (SameCause ρ) (Definition.Renamed ρ) (concatenated sums top)
      (concatenated (sums.rename ρ) (top.rename ρ)) := by
  refine Runs.freshRelation hS fun name hname => ?_
  refine Runs.freshVar hS fun highest => ?_
  refine Runs.freshVar hS fun text => ?_
  exact runs_pure ⟨rfl, hname⟩

theorem runs_concat (a : Predicate) :
    Runs S (SameCause ρ) (Emission.Renamed ρ) (emitConcat a) (emitConcat (a.rename ρ)) := by
  unfold emitConcat
  rw [show (a.rename ρ).lastType? = a.lastType? from rfl]
  cases a.lastType? with
  | none => exact Runs.bind (R := fun _ _ => False) (runs_throw rfl) fun _ _ h => h.elim
  | some last =>
      refine Runs.check (avoids_ensure rfl) fun _ => ?_
      refine (runs_rank hS a).bind ?_
      rintro ranked _ ⟨rfl, hranked⟩
      refine (runs_accumulator hS a ranked.predicate).bind ?_
      rintro sums _ ⟨rfl, hsums⟩
      refine (runs_highestRank hS a ranked.predicate).bind ?_
      rintro top _ ⟨rfl, htop⟩
      refine (runs_concatenated hS sums.predicate top.predicate).bind ?_
      rintro result _ ⟨rfl, hresult⟩
      refine runs_pure ⟨rfl, ?_⟩
      simpa [Emission.definitions] using ⟨hranked, hsums, htop, hresult⟩

section Grounded

variable {extra : List String} {scope scope' : Scope} (hscope : scope.Extends ρ extra scope')

include hscope

theorem runs_quantifier (quantifier : Quantifier) (a : Predicate) :
    Runs S (SameCause ρ) (Emission.Renamed ρ) (emitQuantifier quantifier a scope)
      (emitQuantifier quantifier (a.rename ρ) scope') := by
  refine Runs.freshRelation hS fun name hname => ?_
  cases quantifier with
  | some => exact runs_single hname rfl
  | no =>
      refine Runs.ground hscope fun grounding => ?_
      exact runs_single hname rfl

theorem runs_setOperation (operation : SetOp) (a b : Predicate) :
    Runs S (SameCause ρ) (Emission.Renamed ρ) (emitSetOperation operation a b scope)
      (emitSetOperation operation (a.rename ρ) (b.rename ρ) scope') := by
  refine Runs.check (avoids_ensure rfl) fun _ => ?_
  refine Runs.freshRelation hS fun name hname => ?_
  refine Runs.freshVars hS fun vars => ?_
  cases operation with
  | union =>
      refine Runs.ground hscope fun forLeft => ?_
      refine Runs.ground hscope fun forRight => ?_
      exact runs_single hname rfl
  | intersection => exact runs_single hname rfl
  | difference =>
      refine Runs.ground hscope fun grounding => ?_
      exact runs_single hname rfl

theorem runs_count (a : Predicate) :
    Runs S (SameCause ρ) (Emission.Renamed ρ) (emitCount a scope)
      (emitCount (a.rename ρ) scope') := by
  refine Runs.freshRelation hS fun name hname => ?_
  refine Runs.freshVar hS fun count => ?_
  refine Runs.ground hscope fun grounding => ?_
  exact runs_single hname rfl

theorem runs_aggregate (function : NumericAggregate) (a : Predicate) :
    Runs S (SameCause ρ) (Emission.Renamed ρ) (emitAggregate function a scope)
      (emitAggregate function (a.rename ρ) scope') := by
  unfold emitAggregate
  rw [show (a.rename ρ).lastType? = a.lastType? from rfl]
  cases a.lastType? with
  | none => exact Runs.bind (R := fun _ _ => False) (runs_throw rfl) fun _ _ h => h.elim
  | some last =>
      refine Runs.check (avoids_ensure rfl) fun _ => ?_
      refine Runs.freshRelation hS fun name hname => ?_
      refine Runs.freshVar hS fun value => ?_
      refine Runs.freshVar hS fun each => ?_
      refine Runs.ground hscope fun grounding => ?_
      exact runs_single hname rfl

omit hS in
theorem renameScalars_of_extends (text : String) :
    renameScalars scope' text = renameScalars scope text := by
  have hname : renameScalar scope' = renameScalar scope := by
    funext name
    rw [renameScalar, renameScalar, hscope.scalar, Option.isSome_map]
  rw [renameScalars, renameScalars, hname]

theorem runs_formula (text : String) :
    Runs S (SameCause ρ) (Emission.Renamed ρ) (emitFormula text scope)
      (emitFormula text scope') := by
  unfold emitFormula
  rw [hscope.scalarNames, renameScalars_of_extends hscope]
  refine Runs.freshRelation hS fun name hname => ?_
  refine Runs.freshVar hS fun value => ?_
  refine Runs.ground hscope fun grounding => ?_
  refine runs_single hname ?_
  simp only [List.map_cons, List.map_nil, Rule.rename, List.map_append]
  rfl

theorem runs_unary (op : UnaryOp) (a : Predicate) :
    Runs S (SameCause ρ) (Emission.Renamed ρ) (emitUnary op a scope)
      (emitUnary op (a.rename ρ) scope') := by
  cases op with
  | quantify quantifier => exact runs_quantifier hS hscope quantifier a
  | count => exact runs_count hS hscope a
  | closure => exact runs_closure hS a
  | reflexiveClosure => exact runs_throw rfl
  | transpose => exact runs_transpose hS a
  | aggregate function => exact runs_aggregate hS hscope function a
  | wildcardApply => exact runs_dropFirst hS a
  | index => exact runs_index hS a
  | concat => exact runs_concat hS a

theorem runs_binary (op : BinaryOp) (a b : Predicate) :
    Runs S (SameCause ρ) (Emission.Renamed ρ) (emitBinary op a b scope)
      (emitBinary op (a.rename ρ) (b.rename ρ) scope') := by
  cases op with
  | join => exact runs_join hS a b
  | compare comparison => exact runs_comparison hS comparison a b
  | set operation => exact runs_setOperation hS hscope operation a b
  | product => exact runs_product hS a b
  | apply => exact runs_apply hS a b
  | domainRestrict => exact runs_domainRestrict hS a b
  | rangeRestrict => exact runs_rangeRestrict hS a b
  | arith operation => exact runs_arithmetic hS operation a b

end Grounded

end Operators

/-! ## Commands of an emission -/

section Commands

variable {ρ : String → String} {extra : List String} {scope scope' : Scope}

theorem paramType_of_extends (hscope : scope.Extends ρ extra scope') (relation param : String) :
    scope'.paramType (ρ relation) param =
      (scope.paramType relation param).mapError (Cause.rename ρ) := by
  rw [Scope.paramType, Scope.paramType, hscope.scalar]
  cases scope.scalar? param <;> rfl

theorem declare_of_extends (hscope : scope.Extends ρ extra scope') (p : Predicate)
    (domains : List (List String)) :
    scope'.declare (p.rename ρ) domains =
      ((scope.declare p domains).map (Datalog.Decl.rename ρ)).mapError (Cause.rename ρ) := by
  have htypes : p.params.mapM (scope'.paramType (ρ p.name)) =
      (p.params.mapM (scope.paramType p.name)).mapError (Cause.rename ρ) := by
    induction p.params with
    | nil => rfl
    | cons x rest ih =>
        rw [List.mapM_cons, List.mapM_cons, ih, paramType_of_extends hscope]
        cases scope.paramType p.name x with
        | error cause => rfl
        | ok type => cases rest.mapM (scope.paramType p.name) <;> rfl
  rw [Scope.declare, Scope.declare]
  change (p.params.mapM (scope'.paramType (ρ p.name)) >>= _) = _
  rw [htypes]
  cases p.params.mapM (scope.paramType p.name) <;> rfl

theorem commands_of_extends (hscope : scope.Extends ρ extra scope') (options : Options) (e : Expr)
    {d : Definition} (hcolon : ':' ∉ d.predicate.name.toList) :
    (d.rename ρ).commands options e scope' =
      ((d.commands options e scope).map (List.map (Command.rename ρ))).mapError
        (Cause.rename ρ) := by
  have hcomment : (d.rename ρ).comment e = (d.comment e).rename ρ := by
    have htext : ∀ name : String, name ++ ": " ++ sourceText e ++ " (" ++ d.label ++ ")" =
        name ++ ":" ++ (" " ++ sourceText e ++ " (" ++ d.label ++ ")") := by
      intro name
      apply String.toList_inj.mp
      simp
    rw [Definition.comment, Definition.comment, Command.rename, htext d.predicate.name,
      Datalog.renameComment_append ρ hcolon]
    exact congrArg Command.comment (htext (ρ d.predicate.name))
  have hrules : (d.rename ρ).rules.map Command.rule =
      (d.rules.map Command.rule).map (Command.rename ρ) := by
    simp only [Definition.rename, List.map_map]
    rfl
  rw [Definition.commands, Definition.commands]
  change (scope'.declare (d.predicate.rename ρ) d.choiceDomains >>= _) = _
  rw [declare_of_extends hscope, hcomment, hrules]
  cases scope.declare d.predicate d.choiceDomains with
  | error cause => rfl
  | ok decl => cases options.comments <;> rfl

theorem emission_commands_of_extends (hscope : scope.Extends ρ extra scope') (options : Options)
    (e : Expr) {em em' : Emission} (hem : Emission.Renamed ρ em em') :
    em'.commands options e scope' =
      ((em.commands options e scope).map (List.map (Command.rename ρ))).mapError
        (Cause.rename ρ) := by
  have hblocks : ∀ definitions : List Definition,
      (∀ d ∈ definitions, ':' ∉ d.predicate.name.toList) →
      (definitions.map (Definition.rename ρ)).mapM (Definition.commands options e scope') =
        ((definitions.mapM (Definition.commands options e scope)).map
          (List.map (List.map (Command.rename ρ)))).mapError (Cause.rename ρ) := by
    intro definitions hcolon
    induction definitions with
    | nil => rfl
    | cons d rest ih =>
        rw [List.forall_mem_cons] at hcolon
        rw [List.map_cons, List.mapM_cons, List.mapM_cons, ih hcolon.2,
          commands_of_extends hscope options e hcolon.1]
        cases d.commands options e scope with
        | error cause => rfl
        | ok block => cases rest.mapM (Definition.commands options e scope) <;> rfl
  have hdefinitions : em'.auxiliary ++ [em'.result] =
      (em.auxiliary ++ [em.result]).map (Definition.rename ρ) := by
    rw [hem.eq_rename, List.map_append]
    rfl
  rw [Emission.commands, Emission.commands, hdefinitions,
    hblocks (em.auxiliary ++ [em.result]) hem.colon]
  cases (em.auxiliary ++ [em.result]).mapM (Definition.commands options e scope) with
  | error cause => rfl
  | ok blocks => exact congrArg Except.ok (List.map_flatten ..).symm

end Commands

end Compile

end RelQuery
