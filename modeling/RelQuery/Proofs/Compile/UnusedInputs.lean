import RelQuery.Proofs.Compile.FirstFault
import RelQuery.Proofs.Compile.Renaming

/-!
# Inputs that are not used do not matter

Two runs of the compiler on one expression, in scopes that agree on the names of the expression and
with supplies in step, take the same decisions.  They end in the same predicate and the same program
under other names of the generated relations, or in the same failure.

An input that is not used changes neither what the names of the expression stand for nor which names
are scalars.  All it does is to keep its own name from the generated relations.  So it changes
nothing at all unless its name is one that a generated relation could have, and the order of the
inputs never changes anything.
-/

namespace RelQuery

open Datalog (Command)

/-- The names that stand in an expression, used or bound. -/
def Expr.vocabulary : Expr → List String
  | constant .. | formula .. => []
  | name x _ => [x]
  | unary _ operand _ => operand.vocabulary
  | binary _ left right _ => left.vocabulary ++ right.vocabulary
  | comprehension _ scalars constraint body _ =>
    scalars ++ (constraint.vocabulary ++ body.vocabulary)
  | letIn x value body _ => x :: (value.vocabulary ++ body.vocabulary)

/-! ## Scopes -/

namespace Scope.Extends

variable {ρ : String → String} {extra : List String} {scope scope' : Scope} {x : String}

theorem isBound_eq (h : scope.Extends ρ extra scope') (hx : x ∉ extra) :
    scope'.isBound x = scope.isBound x := by
  rw [isBound, isBound, h.lookup x hx, Option.isSome_map]

theorem bind (h : scope.Extends ρ extra scope') (binding : Binding) :
    (scope.bind x binding).Extends ρ extra (scope'.bind x (binding.rename ρ)) where
  lookup := by
    intro y hy
    rw [lookup_bind, lookup_bind]
    split
    · rfl
    · exact h.lookup y hy
  scalar := by
    intro y
    have hscalar := h.scalar y
    unfold scalar? at hscalar ⊢
    rw [lookup_bind, lookup_bind]
    by_cases hy : y = x
    · rw [if_pos hy, if_pos hy]
      cases binding <;> rfl
    · rwa [if_neg hy, if_neg hy]
  scalarNames := by
    have hnames : ∀ (scope : Scope) (binding : Binding), (scope.bind x binding).scalarNames =
        scope.scalarNames ++ (Scope.mk [(x, binding)]).scalarNames := by
      intro scope binding
      unfold Scope.scalarNames bindings Scope.bind
      rw [List.reverse_cons, List.filterMap_append]
      rfl
    rw [hnames, hnames, h.scalarNames]
    cases binding <;> rfl

theorem firstRebound?_eq (h : scope.Extends ρ extra scope') {scalars : List String}
    (hscalars : ∀ x ∈ scalars, x ∉ extra) (seen : List String) :
    Compile.firstRebound? scope' seen scalars = Compile.firstRebound? scope seen scalars := by
  induction scalars generalizing seen with
  | nil => rfl
  | cons x rest ih =>
      rw [List.forall_mem_cons] at hscalars
      rw [Compile.firstRebound?, Compile.firstRebound?, h.isBound_eq hscalars.1, ih hscalars.2]

theorem comprehensionScope (h : scope.Extends ρ extra scope') (c : Predicate)
    (scalars : List String) :
    (Compile.comprehensionScope scope c scalars).Extends ρ extra
      (Compile.comprehensionScope scope' (c.rename ρ) scalars) := by
  unfold Compile.comprehensionScope
  rw [show (c.rename ρ).columns = c.columns from rfl]
  generalize (scalars.zip c.columns).zipIdx = entries
  induction entries generalizing scope scope' with
  | nil => exact h
  | cons entry rest ih => exact ih (h.bind _)

end Scope.Extends

/-! ## Runs -/

namespace Compile

variable {ρ : String → String} {S : FreshNames → FreshNames → Prop} {α : Type} {R : α → α → Prop}
variable {extra : List String} {scope scope' : Scope} {options : Options}

/-- The same failure at the same node, under other names of relations. -/
structure SameFailure (ρ : String → String) (failure failure' : CompileError) : Prop where
  failing : failure'.failing = failure.failing
  kind : failure'.kind = failure.kind
  cause : failure'.cause = failure.cause.rename ρ

/-- The same predicate and program under other names of relations. -/
def SameProgram (ρ : String → String) (c c' : Compiled) : Prop :=
  c' = c.rename ρ

theorem sameFailure_located (e : Expr) (scope scope' : Scope) {cause cause' : Cause}
    (h : SameCause ρ cause cause') :
    SameFailure ρ (.located e scope cause) (.located e scope' cause') :=
  ⟨rfl, rfl, h⟩

theorem runs_locate (e : Expr) {m m' : Emit α} (h : Runs S (SameCause ρ) R m m') :
    Runs S (SameFailure ρ) R (locate e scope m) (locate e scope' m') := by
  intro names names' hnames
  have hrun := h hnames
  rw [locate, locate]
  generalize m names = r at hrun
  generalize m' names' = r' at hrun
  cases hrun with
  | ok hx hlater => exact .ok hx hlater
  | error hcause => exact .error (sameFailure_located e scope scope' hcause)

theorem runs_define (hscope : scope.Extends ρ extra scope') (e : Expr)
    {before before' : List Command} (hbefore : before' = before.map (Command.rename ρ))
    {emit emit' : Emit Emission} (hemit : Runs S (SameCause ρ) (Emission.Renamed ρ) emit emit') :
    Runs S (SameFailure ρ) (SameProgram ρ) (define options e scope before emit)
      (define options e scope' before' emit') := by
  subst hbefore
  refine runs_locate e (hemit.bind fun em em' hem => ?_)
  refine (runs_lift (emission_commands_of_extends hscope options e hem)).bind ?_
  rintro commands _ rfl
  refine runs_pure ?_
  rw [SameProgram, hem.eq_rename, ← List.map_append]
  rfl

/-- The runs on an expression correspond in all scopes that do. -/
def Corresponds (ρ : String → String) (S : FreshNames → FreshNames → Prop) (extra : List String)
    (options : Options) (e : Expr) : Prop :=
  ∀ {scope scope' : Scope}, scope.Extends ρ extra scope' →
    Runs S (SameFailure ρ) (SameProgram ρ) (compile options scope e) (compile options scope' e)

theorem Corresponds.operand {e : Expr} (h : Corresponds ρ S extra options e)
    (hscope : scope.Extends ρ extra scope') :
    Runs S (SameFailure ρ) (SameProgram ρ) (operand e scope (compile options scope e))
      (operand e scope' (compile options scope' e)) := by
  unfold Compile.operand
  split
  · exact runs_throw (sameFailure_located e scope scope' rfl)
  · exact h hscope

section Nodes

variable (hS : Supplies ρ S)

include hS

theorem corresponds_name {x : String} (hx : x ∉ extra) (span : Span) :
    Corresponds ρ S extra options (.name x span) := by
  intro scope scope' hscope
  rw [compile, compile, hscope.lookup x hx]
  cases scope.lookup x with
  | none => exact runs_throw (sameFailure_located _ scope scope' (by split <;> rfl))
  | some binding =>
      cases binding with
      | relation p => exact runs_pure rfl
      | scalar s => exact runs_define hscope _ rfl (runs_scalar hS x s)

theorem corresponds_unary {inner : Expr} (hinner : Corresponds ρ S extra options inner)
    (op : UnaryOp) (span : Span) : Corresponds ρ S extra options (.unary op inner span) := by
  intro scope scope' hscope
  by_cases hop : op = .reflexiveClosure
  · subst hop
    exact runs_throw (sameFailure_located _ scope scope' rfl)
  · rw [compile_unary hop, compile_unary hop]
    refine (hinner.operand hscope).bind ?_
    rintro a _ rfl
    exact runs_define hscope _ rfl (runs_unary hS hscope op a.predicate)

theorem corresponds_binary {left right : Expr} (hleft : Corresponds ρ S extra options left)
    (hright : Corresponds ρ S extra options right) (op : BinaryOp) (span : Span) :
    Corresponds ρ S extra options (.binary op left right span) := by
  intro scope scope' hscope
  cases binaryForm op left right with
  | dropFirst hleftWild hrightWild =>
      rw [compile_dropFirst hleftWild hrightWild, compile_dropFirst hleftWild hrightWild]
      refine (hright.operand hscope).bind ?_
      rintro b _ rfl
      exact runs_define hscope _ rfl (runs_dropFirst hS b.predicate)
  | dropLast hleftWild hrightWild =>
      rw [compile_dropLast hleftWild hrightWild, compile_dropLast hleftWild hrightWild]
      refine (hleft.operand hscope).bind ?_
      rintro a _ rfl
      exact runs_define hscope _ rfl (runs_dropLast hS a.predicate)
  | wildcards hleftWild hrightWild =>
      rw [compile_wildcardJoin hleftWild hrightWild, compile_wildcardJoin hleftWild hrightWild]
      exact runs_throw (sameFailure_located _ scope scope' rfl)
  | operands hop =>
      rw [compile_binary hop, compile_binary hop]
      refine (hleft.operand hscope).bind ?_
      rintro a _ rfl
      refine (hright.operand hscope).bind ?_
      rintro b _ rfl
      exact runs_define hscope _ List.map_append.symm
        (runs_binary hS hscope op a.predicate b.predicate)

theorem corresponds_comprehension {scalars : List String} (hscalars : ∀ x ∈ scalars, x ∉ extra)
    {constraint body : Expr} (hconstraint : Corresponds ρ S extra options constraint)
    (hbody : Corresponds ρ S extra options body) (style : Style) (span : Span) :
    Corresponds ρ S extra options (.comprehension style scalars constraint body span) := by
  intro scope scope' hscope
  have hrebound := hscope.firstRebound?_eq hscalars []
  cases hfirst : firstRebound? scope [] scalars with
  | some x =>
      rw [compile_rebound hfirst, compile_rebound (hrebound.trans hfirst)]
      exact runs_throw (sameFailure_located _ scope scope' rfl)
  | none =>
      rw [compile_comprehension hfirst, compile_comprehension (hrebound.trans hfirst)]
      refine (hconstraint.operand hscope).bind ?_
      rintro c _ rfl
      refine (runs_locate _ (runs_check (avoids_ensure rfl))).bind fun _ _ _ => ?_
      have hinner := hscope.comprehensionScope c.predicate scalars
      refine (hbody.operand hinner).bind ?_
      rintro b _ rfl
      exact runs_define hscope _ List.map_append.symm
        (runs_comprehension hS style scalars c.predicate b.predicate)

omit hS in
theorem corresponds_letIn {x : String} (hx : x ∉ extra) {value body : Expr}
    (hvalue : Corresponds ρ S extra options value) (hbody : Corresponds ρ S extra options body)
    (span : Span) : Corresponds ρ S extra options (.letIn x value body span) := by
  intro scope scope' hscope
  have hbound := hscope.isBound_eq hx
  cases hfirst : scope.isBound x with
  | true =>
      rw [compile_bound hfirst, compile_bound (hbound.trans hfirst)]
      exact runs_throw (sameFailure_located _ scope scope' rfl)
  | false =>
      rw [compile_letIn hfirst, compile_letIn (hbound.trans hfirst)]
      refine (hvalue.operand hscope).bind ?_
      rintro a _ rfl
      refine (hbody (hscope.bind (.relation a.predicate))).bind ?_
      rintro b _ rfl
      exact runs_pure (congrArg (Compiled.mk _ ⟨·⟩) List.map_append.symm)

/-- The runs on an expression that mentions none of the extra names correspond. -/
theorem corresponds_compile (options : Options) {e : Expr} (hfree : ∀ x ∈ e.vocabulary, x ∉ extra) :
    Corresponds ρ S extra options e := by
  induction e with
  | constant value span => exact fun hscope => runs_define hscope _ rfl (runs_constant hS value)
  | name x span => exact corresponds_name hS (hfree x List.mem_cons_self) span
  | formula text span =>
      exact fun hscope => runs_define hscope _ rfl (runs_formula hS hscope text)
  | unary op inner span ih => exact corresponds_unary hS (ih hfree) op span
  | binary op left right span ihleft ihright =>
      obtain ⟨hleft, hright⟩ := List.forall_mem_append.mp hfree
      exact corresponds_binary hS (ihleft hleft) (ihright hright) op span
  | comprehension style scalars constraint body span ihconstraint ihbody =>
      obtain ⟨hscalars, hrest⟩ := List.forall_mem_append.mp hfree
      obtain ⟨hconstraint, hbody⟩ := List.forall_mem_append.mp hrest
      exact corresponds_comprehension hS hscalars (ihconstraint hconstraint) (ihbody hbody) style
        span
  | letIn x value body span ihvalue ihbody =>
      obtain ⟨hx, hrest⟩ := List.forall_mem_cons.mp hfree
      obtain ⟨hvalue, hbody⟩ := List.forall_mem_append.mp hrest
      exact corresponds_letIn hx (ihvalue hvalue) (ihbody hbody) span

end Nodes

end Compile

/-! ## Scopes of inputs -/

namespace Scope

variable {inputs inputs' extra : List (String × List ColumnType)} {scope scope' : Scope}
variable {ρ : String → String} {x : String}

theorem exists_foldlM_extend {start : Scope} (hnew : ∀ input ∈ inputs, start.lookup input.1 = none)
    (hnodup : (inputs.map Prod.fst).Nodup) :
    ∃ scope, inputs.foldlM (fun scope input =>
      scope.extend input.1 (.relation (inputPredicate input.1 input.2))) start = .ok scope := by
  induction inputs generalizing start with
  | nil => exact ⟨start, rfl⟩
  | cons input rest ih =>
      rw [List.forall_mem_cons] at hnew
      rw [List.map_cons, List.nodup_cons] at hnodup
      have hbound : start.isBound input.1 = false := isBound_eq_false_iff.mpr hnew.1
      rw [List.foldlM_cons, extend, hbound]
      apply ih _ hnodup.2
      intro other hother
      rw [lookup_bind, if_neg, hnew.2 other hother]
      rintro heq
      exact hnodup.1 (heq ▸ List.mem_map_of_mem hother)

/-- Inputs with distinct names make a scope. -/
theorem exists_ofInputs (h : (inputs.map Prod.fst).Nodup) :
    ∃ scope, ofInputs inputs = .ok scope :=
  exists_foldlM_extend (fun _ _ => rfl) h

theorem scalar?_ofInputs (h : ofInputs inputs = .ok scope) (x : String) :
    scope.scalar? x = none := by
  unfold scalar?
  cases hlookup : scope.lookup x with
  | none => rfl
  | some binding =>
      obtain ⟨types, -, rfl⟩ := (lookup_ofInputs h).mp hlookup
      rfl

theorem scalarNames_ofInputs (h : ofInputs inputs = .ok scope) : scope.scalarNames = [] := by
  rw [scalarNames, bindings, (frames_ofInputs h).1, List.reverse_reverse, List.filterMap_map]
  exact List.filterMap_eq_nil_iff.mpr fun _ _ => rfl

/-- More inputs in another order extend a scope. -/
theorem extends_ofInputs (h : ofInputs inputs = .ok scope) (h' : ofInputs inputs' = .ok scope')
    (hperm : inputs'.Perm (extra ++ inputs)) (hρ : ∀ x ∈ inputs.map Prod.fst, ρ x = x) :
    scope.Extends ρ (extra.map Prod.fst) scope' where
  lookup := by
    intro x hx
    apply Option.ext
    intro binding
    have hmem : ∀ types, (x, types) ∈ inputs' ↔ (x, types) ∈ inputs := by
      intro types
      have hextra : (x, types) ∉ extra := fun hin => hx (List.mem_map_of_mem hin)
      rw [hperm.mem_iff, List.mem_append, or_iff_right hextra]
    have hrename : ∀ types, (x, types) ∈ inputs →
        (Binding.relation (inputPredicate x types)).rename ρ =
          .relation (inputPredicate x types) := by
      intro types hin
      rw [Binding.rename, Predicate.rename, inputPredicate, hρ x (List.mem_map_of_mem hin)]
    rw [lookup_ofInputs h', Option.map_eq_some_iff]
    constructor
    · rintro ⟨types, hin, rfl⟩
      rw [hmem] at hin
      exact ⟨_, (lookup_ofInputs h).mpr ⟨types, hin, rfl⟩, hrename types hin⟩
    · rintro ⟨found, hfound, rfl⟩
      obtain ⟨types, hin, rfl⟩ := (lookup_ofInputs h).mp hfound
      exact ⟨types, (hmem types).mpr hin, hrename types hin⟩
  scalar := by
    intro x
    rw [scalar?_ofInputs h, scalar?_ofInputs h']
    rfl
  scalarNames := by
    rw [scalarNames_ofInputs h, scalarNames_ofInputs h']

theorem mem_reserved_ofInputs (h : ofInputs inputs = .ok scope) :
    x ∈ (FreshNames.inScope scope).reserved ↔ x ∈ inputs.map Prod.fst := by
  rw [FreshNames.inScope, FreshNames.avoiding, relations_ofInputs h, List.flatMap_map]
  simp [inputPredicate, eq_comm]

end Scope

/-! ## The comparison -/

/-- A renaming of generated relations: no two names become one, generated names become generated
names, and all others stay, as do those of the inputs. -/
structure RenamesGenerated (inputs : List (String × List ColumnType)) (ρ : String → String) :
    Prop where
  injective : Function.Injective ρ
  generated : ∀ n, ∃ m, ρ (FreshNames.relationName n) = FreshNames.relationName m
  others : ∀ x, (∀ n, x ≠ FreshNames.relationName n) → ρ x = x
  inputs : ∀ x ∈ inputs.map Prod.fst, ρ x = x

/-- Both compilations succeed, with results in the relation `R`, or both fail at the same node for
the same cause. -/
def Alike (R : Compiled → Compiled → Prop) :
    Except CompileError Compiled → Except CompileError Compiled → Prop
  | .ok c, .ok c' => R c c'
  | .error failure, .error failure' =>
    failure'.cause = failure.cause ∧ failure'.failing = failure.failing ∧
      failure'.kind = failure.kind
  | _, _ => False

theorem Alike.imp {R Q : Compiled → Compiled → Prop} {r r' : Except CompileError Compiled}
    (h : Alike R r r') (hR : ∀ c c', R c c' → Q c c') : Alike Q r r' := by
  cases r with
  | ok c =>
      cases r' with
      | ok c' => exact hR c c' h
      | error failure' => exact h
  | error failure =>
      cases r' with
      | ok c' => exact h
      | error failure' => exact h

@[simp] theorem Compiled.rename_id (c : Compiled) : c.rename id = c := by
  rw [Compiled.rename, Predicate.rename, Datalog.Program.rename_id]
  rfl

section Inputs

variable {inputs inputs' extra : List (String × List ColumnType)} {scope scope' : Scope}

open FreshNames (renumber relationName)

theorem renamesGenerated_renumber (h : Scope.ofInputs inputs = .ok scope)
    (h' : Scope.ofInputs inputs' = .ok scope') (hperm : inputs'.Perm (extra ++ inputs)) :
    RenamesGenerated inputs
      (renumber (FreshNames.inScope scope).reserved (FreshNames.inScope scope').reserved) where
  injective := by
    apply FreshNames.renumber_injective
    intro n hn
    rw [Scope.mem_reserved_ofInputs h] at hn
    rw [Scope.mem_reserved_ofInputs h', (hperm.map Prod.fst).mem_iff, List.map_append]
    exact List.mem_append_right _ hn
  generated := FreshNames.renumber_relationName _ _
  others := by
    intro x hx
    apply FreshNames.renumber_of_not_turn
    rintro ⟨k, rfl⟩
    exact hx _ rfl
  inputs := fun x hx => FreshNames.renumber_of_mem ((Scope.mem_reserved_ofInputs h).mpr hx)

/-- Where no input that is added has the name of a generated relation, no name changes. -/
theorem renumber_eq_id_of_extra (h : Scope.ofInputs inputs = .ok scope)
    (h' : Scope.ofInputs inputs' = .ok scope') (hperm : inputs'.Perm (extra ++ inputs))
    (hextra : ∀ n, relationName n ∉ extra.map Prod.fst) :
    renumber (FreshNames.inScope scope).reserved (FreshNames.inScope scope').reserved = id := by
  apply FreshNames.renumber_eq_id
  intro n
  rw [Scope.mem_reserved_ofInputs h, Scope.mem_reserved_ofInputs h', (hperm.map Prod.fst).mem_iff,
    List.map_append, List.mem_append, or_iff_right (hextra n)]

/-- More inputs, in any order, change names of generated relations at most. -/
theorem alike_of_perm (h : Scope.ofInputs inputs = .ok scope)
    (h' : Scope.ofInputs inputs' = .ok scope') (hperm : inputs'.Perm (extra ++ inputs)) {e : Expr}
    (hunused : ∀ x ∈ e.vocabulary, x ∉ extra.map Prod.fst) (options : Compile.Options) :
    Alike (fun c c' => ((∀ n, relationName n ∉ extra.map Prod.fst) → c' = c) ∧
        ∃ ρ, RenamesGenerated inputs ρ ∧ c' = c.rename ρ)
      (e.compile scope options) (e.compile scope' options) := by
  have hρ := renamesGenerated_renumber h h' hperm
  have hid := renumber_eq_id_of_extra h h' hperm
  have hruns := Compile.corresponds_compile (Compile.supplies_inStep _ _) options hunused
    (Scope.extends_ofInputs h h' hperm hρ.inputs) (FreshNames.inStep_avoiding _ _)
  have hfailure : ∀ failure, Compile.compile options scope e (.inScope scope) = .error failure →
      failure.cause.isInternal = false := by
    intro failure hfailed
    have hinfer := (Compile.compile_eq_error_iff (Scope.wellScoped_ofInputs h)).mp hfailed
    exact avoids_infer scope.context e failure hinfer
  change Compile.Parallel _ _ _ (Compile.compile options scope e (.inScope scope))
    (Compile.compile options scope' e (.inScope scope')) at hruns
  unfold Expr.compile StateT.run'
  generalize Compile.compile options scope e (.inScope scope) = r at hruns hfailure
  generalize Compile.compile options scope' e (.inScope scope') = r' at hruns
  cases hruns with
  | ok hprogram =>
      refine ⟨fun hextra => ?_, _, hρ, hprogram⟩
      rw [hprogram, hid hextra, Compiled.rename_id]
  | error hsame =>
      refine ⟨?_, hsame.failing, hsame.kind⟩
      rw [hsame.cause, Cause.rename_of_not_internal _ (hfailure _ rfl)]

/-- An input that an expression does not mention changes its compilation only in the names of
generated relations, and not at all unless such a relation could have its name.  The order of the
inputs changes nothing. -/
theorem compile_ignores_unused_inputs (hinputs : (inputs.map Prod.fst).Nodup) (e : Expr)
    (options : Compile.Options) :
    ∃ scope, Scope.ofInputs inputs = .ok scope ∧
      (∀ z, z.1 ∉ inputs.map Prod.fst → z.1 ∉ e.vocabulary →
        ∀ inputs', inputs'.Perm (z :: inputs) → ∃ scope', Scope.ofInputs inputs' = .ok scope' ∧
          Alike (fun c c' => ((∀ n, z.1 ≠ relationName n) → c' = c) ∧
              ∃ ρ, RenamesGenerated inputs ρ ∧ c' = c.rename ρ)
            (e.compile scope options) (e.compile scope' options)) ∧
      ∀ inputs', inputs'.Perm inputs → ∃ scope', Scope.ofInputs inputs' = .ok scope' ∧
        Alike (fun c c' => c' = c) (e.compile scope options) (e.compile scope' options) := by
  obtain ⟨scope, hscope⟩ := Scope.exists_ofInputs hinputs
  refine ⟨scope, hscope, ?_, ?_⟩
  · intro z hnew hunused inputs' hperm
    have hnodup : (inputs'.map Prod.fst).Nodup :=
      (hperm.map Prod.fst).nodup_iff.mpr (List.nodup_cons.mpr ⟨hnew, hinputs⟩)
    obtain ⟨scope', hscope'⟩ := Scope.exists_ofInputs hnodup
    have hextra : ∀ x ∈ e.vocabulary, x ∉ [z].map Prod.fst := by
      rintro x hx hin
      rw [List.map_singleton, List.mem_singleton] at hin
      exact hunused (hin ▸ hx)
    refine ⟨scope', hscope', (alike_of_perm hscope hscope' hperm hextra options).imp ?_⟩
    rintro c c' ⟨hsame, hrenamed⟩
    refine ⟨fun hname => hsame fun n hn => ?_, hrenamed⟩
    rw [List.map_singleton, List.mem_singleton] at hn
    exact hname n hn.symm
  · intro inputs' hperm
    obtain ⟨scope', hscope'⟩ :=
      Scope.exists_ofInputs ((hperm.map Prod.fst).nodup_iff.mpr hinputs)
    refine ⟨scope', hscope', ?_⟩
    have hnone : inputs'.Perm ([] ++ inputs) := hperm
    refine (alike_of_perm hscope hscope' hnone ?_ options).imp ?_
    · exact fun _ _ => List.not_mem_nil
    · exact fun c c' h => h.1 fun _ => List.not_mem_nil

end Inputs

namespace Sample

/-- The inputs with one more, whose name is the first that a generated relation would have. -/
def moreInputs : List (String × List ColumnType) :=
  [("R2", [.symbol, .number]), ("R1", [.number]), ("person", [.symbol])]

end Sample

/-- A query that does not mention `R1` compiles with and without it, to programs that differ in the
names of generated relations; the other order of the inputs gives the same program. -/
theorem sample_compile_ignores_unused_inputs :
    (Sample.inputs.map Prod.fst).Nodup ∧
      (∃ scope c c', Scope.ofInputs Sample.moreInputs = .ok scope ∧
        Sample.query.compile Sample.scope ⟨true⟩ = .ok c ∧
        Sample.query.compile scope ⟨true⟩ = .ok c' ∧ c' ≠ c ∧
        ∃ ρ, RenamesGenerated Sample.inputs ρ ∧ c' = c.rename ρ) ∧
      ∃ scope c, Scope.ofInputs Sample.inputs.reverse = .ok scope ∧
        Sample.query.compile Sample.scope ⟨true⟩ = .ok c ∧
        Sample.query.compile scope ⟨true⟩ = .ok c := by
  have hnodup : (Sample.inputs.map Prod.fst).Nodup := by decide
  obtain ⟨scope, hscope, hunused, horder⟩ :=
    compile_ignores_unused_inputs hnodup Sample.query ⟨true⟩
  obtain rfl : Sample.scope = scope := Except.ok.inj (Sample.scope_ofInputs.symm.trans hscope)
  have hc : ∃ c, Sample.query.compile Sample.scope ⟨true⟩ = .ok c ∧ c.predicate.name = "R5" :=
    ⟨_, rfl, rfl⟩
  obtain ⟨c, hc, hname⟩ := hc
  refine ⟨hnodup, ?_, ?_⟩
  · obtain ⟨more, hmore, halike⟩ := hunused ("R1", [.number]) (by decide) (by decide)
      Sample.moreInputs (by decide)
    have hc' : ∃ c', Sample.query.compile more ⟨true⟩ = .ok c' ∧ c'.predicate.name = "R6" := by
      cases hmore
      exact ⟨_, rfl, rfl⟩
    obtain ⟨c', hc', hname'⟩ := hc'
    rw [hc, hc'] at halike
    refine ⟨more, c, c', hmore, hc, hc', ?_, halike.2⟩
    rintro rfl
    exact absurd (hname.symm.trans hname') (by decide)
  · obtain ⟨other, hother, halike⟩ := horder Sample.inputs.reverse (List.reverse_perm _)
    cases hrun : Sample.query.compile other ⟨true⟩ with
    | ok c' =>
        rw [hc, hrun] at halike
        exact ⟨other, c, hother, hc, halike ▸ hrun⟩
    | error failure =>
        rw [hc, hrun] at halike
        exact halike.elim

end RelQuery
