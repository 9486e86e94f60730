import RelQuery.Proofs.Compile.FirstFault

/-!
# Comments and places do not matter

Two runs of the compiler on expressions that differ in their spans only, with or without comments,
take the same steps: they draw the same names, define the same predicates and fail at the same node
for the same cause.  Each run is compared with the run on the expression that has forgotten where it
was read from.
-/

namespace RelQuery

open Datalog (Command Program)

/-- Comments and blank lines. -/
def Datalog.Command.isLayout : Command → Bool
  | .comment _ => true
  | .raw text => text.isEmpty
  | _ => false

/-- The commands of a program that are not layout. -/
def Datalog.Program.code (program : Program) : List Command :=
  program.commands.filter fun command => !command.isLayout

theorem Datalog.Program.code_append (before after : List Command) :
    (Program.mk (before ++ after)).code = (Program.mk before).code ++ (Program.mk after).code :=
  List.filter_append ..

theorem Expr.isWildcard_strip (e : Expr) : e.strip.isWildcard = e.isWildcard := by
  cases e <;> rfl

theorem Expr.kind_strip (e : Expr) : e.strip.kind = e.kind := by
  cases e <;> rfl

namespace Compile

/-! ## Runs that agree -/

/-- The same predicate, defined by the same commands. -/
structure SameCode (c c' : Compiled) : Prop where
  predicate : c.predicate = c'.predicate
  code : c.program.code = c'.program.code

/-- The same failure, up to the span of the failing node. -/
structure SameFault (failure failure' : CompileError) : Prop where
  kind : failure.kind = failure'.kind
  scope : failure.scope = failure'.scope
  cause : failure.cause = failure'.cause

/-- Two outcomes with related results and the same names left, or with the same failure. -/
inductive Agree {α : Type} (R : α → α → Prop) :
    Except CompileError (α × FreshNames) → Except CompileError (α × FreshNames) → Prop where
  | ok {x x' : α} {names : FreshNames} (h : R x x') : Agree R (.ok (x, names)) (.ok (x', names))
  | error {failure failure' : CompileError} (h : SameFault failure failure') :
      Agree R (.error failure) (.error failure')

variable {options options' : Options} {scope : Scope} {e : Expr} {names : FreshNames}

theorem Agree.common {r s t : Except CompileError (Compiled × FreshNames)}
    (hr : Agree SameCode r t) (hs : Agree SameCode s t) : Agree SameCode r s := by
  cases hr with
  | ok h =>
      cases hs with
      | ok h' => exact .ok ⟨h.predicate.trans h'.predicate.symm, h.code.trans h'.code.symm⟩
  | error h =>
      cases hs with
      | error h' =>
          exact .error ⟨h.kind.trans h'.kind.symm, h.scope.trans h'.scope.symm,
            h.cause.trans h'.cause.symm⟩

theorem Agree.bind {α β : Type} {R : α → α → Prop} {S : β → β → Prop} {m m' : CompileM α}
    {f f' : α → CompileM β} (h : Agree R (m names) (m' names))
    (hnext : ∀ x x' later, R x x' → Agree S (f x later) (f' x' later)) :
    Agree S ((m >>= f) names) ((m' >>= f') names) := by
  generalize hm : m names = r at h
  generalize hm' : m' names = r' at h
  cases h with
  | ok hx =>
      rw [bind_of_ok hm, bind_of_ok hm']
      exact hnext _ _ _ hx
  | error hfault =>
      rw [bind_of_error hm, bind_of_error hm']
      exact .error hfault

theorem sameFault_located (e : Expr) (scope : Scope) (cause : Cause) :
    SameFault (.located e scope cause) (.located e.strip scope cause) :=
  ⟨(Expr.kind_strip e).symm, rfl, rfl⟩

theorem agree_throw {α : Type} (R : α → α → Prop) (e : Expr) (scope : Scope) (cause : Cause) :
    Agree R ((throw (.located e scope cause) : CompileM α) names)
      ((throw (.located e.strip scope cause) : CompileM α) names) :=
  .error (sameFault_located e scope cause)

theorem agree_locate {α : Type} (e : Expr) (scope : Scope) (emit : Emit α) :
    Agree Eq (locate e scope emit names) (locate e.strip scope emit names) := by
  unfold locate
  cases emit names with
  | error cause => exact .error (sameFault_located e scope cause)
  | ok result => exact .ok rfl

theorem agree_operand {m m' : CompileM Compiled} (h : Agree SameCode (m names) (m' names)) :
    Agree SameCode (operand e scope m names) (operand e.strip scope m' names) := by
  unfold operand
  rw [Expr.isWildcard_strip]
  by_cases hwild : e.isWildcard = true
  · rw [if_pos hwild, if_pos hwild]
    exact agree_throw _ e scope _
  · rw [if_neg hwild, if_neg hwild]
    exact h

/-! ## Definitions -/

/-- Printing a definition fails or gives the same code, whatever its comment says. -/
theorem code_commands (options options' : Options) (e e' : Expr) (scope : Scope)
    (d : Definition) :
    (d.commands options e scope).map (fun commands => (Program.mk commands).code) =
      (d.commands options' e' scope).map fun commands => (Program.mk commands).code := by
  have hheader : ∀ (options : Options) (e : Expr),
      (Program.mk (if options.comments then [.blank, d.comment e] else [])).code = [] := by
    intro options e
    cases options.comments <;> rfl
  unfold Definition.commands
  cases scope.declare d.predicate d.choiceDomains with
  | error cause => rfl
  | ok decl =>
      have hcode : ∀ (options : Options) (e : Expr),
          (Program.mk ((if options.comments then [.blank, d.comment e] else []) ++
            .decl decl :: d.rules.map .rule)).code =
          (Program.mk (.decl decl :: d.rules.map .rule)).code := by
        intro options e
        rw [Program.code_append, hheader, List.nil_append]
      exact congrArg Except.ok ((hcode options e).trans (hcode options' e').symm)

theorem code_siteCommands (options options' : Options) (e e' : Expr) (scope : Scope)
    (definitions : List Definition) :
    (siteCommands options (definitions.map (Site.mk e scope))).map
        (fun commands => (Program.mk commands).code) =
      (siteCommands options' (definitions.map (Site.mk e' scope))).map
        fun commands => (Program.mk commands).code := by
  have happend : ∀ first others : Except Cause (List Command),
      (do
        let before ← first
        let after ← others
        return before ++ after : Except Cause (List Command)).map
          (fun commands => (Program.mk commands).code) =
        (do
          let before ← first.map fun commands => (Program.mk commands).code
          let after ← others.map fun commands => (Program.mk commands).code
          return before ++ after) := by
    intro first others
    cases first with
    | error cause => rfl
    | ok before =>
        cases others with
        | error cause => rfl
        | ok after => exact congrArg Except.ok (Program.code_append before after)
  induction definitions with
  | nil => rfl
  | cons d rest ih =>
      simp only [List.map_cons, siteCommands]
      rw [happend, happend, ih, code_commands options options' e e']

theorem Emission.commands_cases (options options' : Options) (e e' : Expr) (scope : Scope)
    (em : Emission) :
    (∃ cause, em.commands options e scope = .error cause ∧
      em.commands options' e' scope = .error cause) ∨
    ∃ commands commands', em.commands options e scope = .ok commands ∧
      em.commands options' e' scope = .ok commands' ∧
      (Program.mk commands).code = (Program.mk commands').code := by
  have hcode := code_siteCommands options options' e e' scope em.definitions
  have hsites : ∀ (options : Options) (e : Expr),
      siteCommands options (em.definitions.map (Site.mk e scope)) = em.commands options e scope :=
    fun options e => siteCommands_sites options e scope em
  rw [hsites, hsites] at hcode
  cases hrun : em.commands options e scope with
  | error cause =>
      cases hrun' : em.commands options' e' scope with
      | error cause' =>
          rw [hrun, hrun'] at hcode
          exact .inl ⟨cause, rfl, congrArg Except.error (Except.error.inj hcode).symm⟩
      | ok commands' =>
          rw [hrun, hrun'] at hcode
          cases hcode
  | ok commands =>
      cases hrun' : em.commands options' e' scope with
      | error cause' =>
          rw [hrun, hrun'] at hcode
          cases hcode
      | ok commands' =>
          rw [hrun, hrun'] at hcode
          exact .inr ⟨commands, commands', rfl, rfl, Except.ok.inj hcode⟩

theorem agree_define {before before' : List Command} (emit : Emit Emission)
    (hbefore : (Program.mk before).code = (Program.mk before').code) :
    Agree SameCode (define options e scope before emit names)
      (define options' e.strip scope before' emit names) := by
  cases hemit : emit names with
  | error cause =>
      have hfails : ∀ (options : Options) (e : Expr) (before : List Command),
          define options e scope before emit names = .error (.located e scope cause) := by
        intro options e before
        rw [define, locate, bind_of_error hemit]
        rfl
      rw [hfails, hfails]
      exact .error (sameFault_located e scope cause)
  | ok result =>
      obtain ⟨em, later⟩ := result
      have hruns : ∀ (options : Options) (e : Expr) (before : List Command),
          define options e scope before emit names =
            ((em.commands options e scope).map fun commands =>
              ((⟨em.result.predicate, ⟨before ++ commands⟩⟩ : Compiled), later)).mapError
              (.located e scope) := by
        intro options e before
        rw [define, locate, bind_of_ok hemit]
        cases em.commands options e scope <;> rfl
      rw [hruns, hruns]
      rcases em.commands_cases options options' e e.strip scope with
        ⟨cause, hrun, hrun'⟩ | ⟨commands, commands', hrun, hrun', hcode⟩
      · rw [hrun, hrun']
        exact .error (sameFault_located e scope cause)
      · rw [hrun, hrun']
        refine .ok ⟨rfl, ?_⟩
        rw [Program.code_append, Program.code_append, hbefore, hcode]

/-! ## Expressions -/

/-- A run of the compiler agrees with the run on the expression without spans. -/
theorem compile_agrees_strip (options options' : Options) (scope : Scope) (e : Expr)
    (names : FreshNames) :
    Agree SameCode (compile options scope e names) (compile options' scope e.strip names) := by
  induction e generalizing scope names with
  | constant value span => exact agree_define _ rfl
  | name name span =>
      simp only [compile, Expr.strip]
      cases scope.lookup name with
      | none => exact agree_throw SameCode (.name name span) scope _
      | some binding =>
          cases binding with
          | relation p => exact .ok ⟨rfl, rfl⟩
          | scalar binding => exact agree_define _ rfl
  | formula text span => exact agree_define _ rfl
  | unary op inner span ih =>
      by_cases hop : op = .reflexiveClosure
      · subst hop
        exact agree_throw SameCode (.unary .reflexiveClosure inner span) scope _
      · rw [Expr.strip, compile_unary hop, compile_unary hop]
        refine (agree_operand (ih scope names)).bind fun a a' later ha => ?_
        rw [ha.predicate]
        exact agree_define _ ha.code
  | binary op left right span ihleft ihright =>
      have hstrip := Expr.isWildcard_strip
      cases binaryForm op left right with
      | dropFirst hleft hright =>
          rw [Expr.strip, compile_dropFirst hleft hright,
            compile_dropFirst ((hstrip left).trans hleft) ((hstrip right).trans hright)]
          refine (agree_operand (ihright scope names)).bind fun b b' later hb => ?_
          rw [hb.predicate]
          exact agree_define _ hb.code
      | dropLast hleft hright =>
          rw [Expr.strip, compile_dropLast hleft hright,
            compile_dropLast ((hstrip left).trans hleft) ((hstrip right).trans hright)]
          refine (agree_operand (ihleft scope names)).bind fun a a' later ha => ?_
          rw [ha.predicate]
          exact agree_define _ ha.code
      | wildcards hleft hright =>
          rw [Expr.strip, compile_wildcardJoin hleft hright,
            compile_wildcardJoin ((hstrip left).trans hleft) ((hstrip right).trans hright)]
          exact agree_throw SameCode (.binary .join left right span) scope _
      | operands hop =>
          rw [Expr.strip, compile_binary hop, compile_binary (by simpa only [hstrip] using hop)]
          refine (agree_operand (ihleft scope names)).bind fun a a' later ha => ?_
          refine (agree_operand (ihright scope later)).bind fun b b' later hb => ?_
          rw [ha.predicate, hb.predicate]
          refine agree_define (e := .binary op left right span) _ ?_
          rw [Program.code_append, Program.code_append]
          exact congrArg₂ _ ha.code hb.code
  | comprehension style scalars constraint body span ihconstraint ihbody =>
      cases hfree : firstRebound? scope [] scalars with
      | some name =>
          rw [Expr.strip, compile_rebound hfree, compile_rebound hfree]
          exact agree_throw SameCode (.comprehension style scalars constraint body span) scope _
      | none =>
          rw [Expr.strip, compile_comprehension hfree, compile_comprehension hfree]
          refine (agree_operand (ihconstraint scope names)).bind fun c c' later hc => ?_
          rw [hc.predicate]
          refine (agree_locate (.comprehension style scalars constraint body span) scope _).bind
            fun _ _ later _ => ?_
          refine (agree_operand (ihbody _ later)).bind fun b b' later hb => ?_
          rw [hb.predicate]
          refine agree_define (e := .comprehension style scalars constraint body span) _ ?_
          rw [Program.code_append, Program.code_append]
          exact congrArg₂ _ hc.code hb.code
  | letIn name value body span ihvalue ihbody =>
      cases hfree : scope.isBound name with
      | true =>
          rw [Expr.strip, compile_bound hfree, compile_bound hfree]
          exact agree_throw SameCode (.letIn name value body span) scope _
      | false =>
          rw [Expr.strip, compile_letIn hfree, compile_letIn hfree]
          refine (agree_operand (ihvalue scope names)).bind fun a a' later ha => ?_
          rw [ha.predicate]
          refine (ihbody _ later).bind fun b b' later hb => ?_
          refine .ok ⟨hb.predicate, ?_⟩
          rw [Program.code_append, Program.code_append]
          exact congrArg₂ _ ha.code hb.code

end Compile

/-- Two expressions that differ in their spans only compile to the same predicate and to the same
program up to comments and blank lines, or fail for the same cause at a node of the same kind in the
same scope, with or without comments. -/
theorem compile_indifferent {e e' : Expr} (h : e.strip = e'.strip) (scope : Scope)
    (options options' : Compile.Options) :
    match e.compile scope options, e'.compile scope options' with
    | .ok c, .ok c' => c.predicate = c'.predicate ∧ c.program.code = c'.program.code
    | .error failure, .error failure' =>
      failure.cause = failure'.cause ∧ failure.kind = failure'.kind ∧
        failure.scope = failure'.scope
    | _, _ => False := by
  have hrun := Compile.compile_agrees_strip options ⟨false⟩ scope e (.inScope scope)
  have hrun' := Compile.compile_agrees_strip options' ⟨false⟩ scope e' (.inScope scope)
  rw [h] at hrun
  have hagree := hrun.common hrun'
  unfold Expr.compile StateT.run'
  generalize Compile.compile options scope e (.inScope scope) = r at hagree
  generalize Compile.compile options' scope e' (.inScope scope) = r' at hagree
  cases hagree with
  | ok hcode => exact ⟨hcode.predicate, hcode.code⟩
  | error hfault => exact ⟨hfault.cause, hfault.kind, hfault.scope⟩

namespace Sample

/-- The number of persons, read from the text of its spans. -/
def count : Expr :=
  .unary .count (.name "person" ⟨"# person", 2, 8⟩) ⟨"# person", 0, 8⟩

end Sample

/-- A query that fails and one that does not, each with its spans and comments and without. -/
theorem sample_compile_indifferent :
    Sample.faulty ≠ Sample.faulty.strip ∧ Sample.count ≠ Sample.count.strip ∧
      (∃ failure, Sample.faulty.strip.compile Sample.scope ⟨false⟩ = .error failure ∧
        failure.cause = .unknownIdentifier "missing" ∧ failure.scope = Sample.fault.scope) ∧
      ∃ c c', Sample.count.compile Sample.scope ⟨true⟩ = .ok c ∧
        Sample.count.strip.compile Sample.scope ⟨false⟩ = .ok c' ∧
        c.program.commands.length = c'.program.commands.length + 2 ∧
        c.predicate = c'.predicate ∧ c.program.code = c'.program.code := by
  have hfaulty : Sample.faulty.strip = Sample.faulty.strip.strip := by rfl
  have hcount : Sample.count.strip = Sample.count.strip.strip := by rfl
  refine ⟨by decide, by decide, ?_, ?_⟩
  · have hagree := compile_indifferent hfaulty Sample.scope ⟨true⟩ ⟨false⟩
    rw [Sample.compile_faulty] at hagree
    cases hrun : Sample.faulty.strip.compile Sample.scope ⟨false⟩ with
    | ok c =>
        rw [hrun] at hagree
        exact hagree.elim
    | error failure =>
        rw [hrun] at hagree
        exact ⟨failure, rfl, hagree.1.symm, hagree.2.2.symm⟩
  · have hagree := compile_indifferent hcount Sample.scope ⟨true⟩ ⟨false⟩
    exact ⟨_, _, rfl, rfl, rfl, hagree⟩

end RelQuery
