import RelQuery.Proofs.Compile.Emission

/-!
# Derivations of compiled expressions

`Derives` is the compiler without its text.  A derivation gives the predicate of an expression and
the sites at which predicates are defined, in program order, but not the commands that print them.
Compiling succeeds exactly when there is a derivation whose sites can be printed, so a property of
all programs is proved by one induction over derivations, and the options for comments play no part
in it.
-/

namespace RelQuery.Compile

open Datalog (Command)

/-! ## Sites -/

/-- A definition with the node and the scope for which it is made. -/
structure Site where
  node : Expr
  scope : Scope
  definition : Definition

def Site.predicate (site : Site) : Predicate :=
  site.definition.predicate

def Emission.sites (e : Expr) (scope : Scope) (em : Emission) : List Site :=
  em.definitions.map fun definition => ⟨e, scope, definition⟩

theorem Emission.mem_sites {e : Expr} {scope : Scope} {em : Emission} {site : Site} :
    site ∈ em.sites e scope ↔ ∃ d ∈ em.definitions, site = ⟨e, scope, d⟩ := by
  simp [Emission.sites, eq_comm]

def siteCommands (options : Options) : List Site → Except Cause (List Command)
  | [] => .ok []
  | site :: rest => do
    let first ← site.definition.commands options site.node site.scope
    let others ← siteCommands options rest
    return first ++ others

theorem siteCommands_cons_eq_ok {options : Options} {site : Site} {rest : List Site}
    {commands : List Command} :
    siteCommands options (site :: rest) = .ok commands ↔
      ∃ first others, site.definition.commands options site.node site.scope = .ok first ∧
        siteCommands options rest = .ok others ∧ commands = first ++ others := by
  simp only [siteCommands, except_bind_eq_ok, except_pure_eq_ok]
  constructor
  · rintro ⟨first, hfirst, others, hothers, rfl⟩
    exact ⟨first, others, hfirst, hothers, rfl⟩
  · rintro ⟨first, others, hfirst, hothers, rfl⟩
    exact ⟨first, hfirst, others, hothers, rfl⟩

theorem siteCommands_append_eq_ok {options : Options} {first second : List Site}
    {commands : List Command} :
    siteCommands options (first ++ second) = .ok commands ↔
      ∃ before after, siteCommands options first = .ok before ∧
        siteCommands options second = .ok after ∧ commands = before ++ after := by
  induction first generalizing commands with
  | nil => simp [siteCommands]
  | cons site rest ih =>
      rw [List.cons_append, siteCommands_cons_eq_ok]
      constructor
      · rintro ⟨block, others, hblock, hothers, rfl⟩
        obtain ⟨before, after, hbefore, hafter, rfl⟩ := ih.mp hothers
        exact ⟨block ++ before, after,
          siteCommands_cons_eq_ok.mpr ⟨block, before, hblock, hbefore, rfl⟩, hafter,
          (List.append_assoc ..).symm⟩
      · rintro ⟨all, after, hall, hafter, rfl⟩
        obtain ⟨block, before, hblock, hbefore, rfl⟩ := siteCommands_cons_eq_ok.mp hall
        exact ⟨block, before ++ after, hblock, ih.mpr ⟨before, after, hbefore, hafter, rfl⟩,
          List.append_assoc ..⟩

theorem siteCommands_sites (options : Options) (e : Expr) (scope : Scope) (em : Emission) :
    siteCommands options (em.sites e scope) = em.commands options e scope := by
  have hmap : ∀ definitions : List Definition,
      siteCommands options (definitions.map fun definition => ⟨e, scope, definition⟩) =
        (do
          let blocks ← definitions.mapM (·.commands options e scope)
          return blocks.flatten) := by
    intro definitions
    induction definitions with
    | nil => rfl
    | cons definition rest ih =>
        rw [List.map_cons, siteCommands, ih, List.mapM_cons]
        simp
  exact hmap _

/-! ## Derivations -/

/-- `Derives scope e names p sites later` says that in `scope` the expression `e` has the predicate
`p`, which the given sites define, and that this takes the supply from `names` to `later`. -/
inductive Derives :
    Scope → Expr → FreshNames → Predicate → List Site → FreshNames → Prop where
  | relation {scope : Scope} {name : String} {span : Span} {names : FreshNames}
      {p : Predicate} (hlookup : scope.lookup name = some (.relation p)) :
      Derives scope (.name name span) names p [] names
  | scalar {scope : Scope} {name : String} {span : Span} {names later : FreshNames}
      {binding : ScalarBinding} {em : Emission}
      (hlookup : scope.lookup name = some (.scalar binding))
      (hemit : emitScalar name binding names = .ok (em, later)) :
      Derives scope (.name name span) names em.result.predicate
        (em.sites (.name name span) scope) later
  | constant {scope : Scope} {value : Constant} {span : Span} {names later : FreshNames}
      {em : Emission} (hemit : emitConstant value names = .ok (em, later)) :
      Derives scope (.constant value span) names em.result.predicate
        (em.sites (.constant value span) scope) later
  | formula {scope : Scope} {text : String} {span : Span} {names later : FreshNames}
      {em : Emission} (hemit : emitFormula text scope names = .ok (em, later)) :
      Derives scope (.formula text span) names em.result.predicate
        (em.sites (.formula text span) scope) later
  | unary {scope : Scope} {op : UnaryOp} {inner : Expr} {span : Span}
      {names mid later : FreshNames} {a : Predicate} {sites : List Site} {em : Emission}
      (hop : op ≠ .reflexiveClosure) (hwild : inner.isWildcard = false)
      (hinner : Derives scope inner names a sites mid)
      (hemit : emitUnary op a scope mid = .ok (em, later)) :
      Derives scope (.unary op inner span) names em.result.predicate
        (sites ++ em.sites (.unary op inner span) scope) later
  | dropFirst {scope : Scope} {left right : Expr} {span : Span}
      {names mid later : FreshNames} {b : Predicate} {sites : List Site} {em : Emission}
      (hleft : left.isWildcard = true) (hright : right.isWildcard = false)
      (hinner : Derives scope right names b sites mid)
      (hemit : emitDropFirst b mid = .ok (em, later)) :
      Derives scope (.binary .join left right span) names em.result.predicate
        (sites ++ em.sites (.binary .join left right span) scope) later
  | dropLast {scope : Scope} {left right : Expr} {span : Span}
      {names mid later : FreshNames} {a : Predicate} {sites : List Site} {em : Emission}
      (hleft : left.isWildcard = false) (hright : right.isWildcard = true)
      (hinner : Derives scope left names a sites mid)
      (hemit : emitDropLast a mid = .ok (em, later)) :
      Derives scope (.binary .join left right span) names em.result.predicate
        (sites ++ em.sites (.binary .join left right span) scope) later
  | binary {scope : Scope} {op : BinaryOp} {left right : Expr} {span : Span}
      {names mid mid' later : FreshNames} {a b : Predicate} {sites sites' : List Site}
      {em : Emission}
      (hleft : left.isWildcard = false) (hright : right.isWildcard = false)
      (hfirst : Derives scope left names a sites mid)
      (hsecond : Derives scope right mid b sites' mid')
      (hemit : emitBinary op a b scope mid' = .ok (em, later)) :
      Derives scope (.binary op left right span) names em.result.predicate
        (sites ++ sites' ++ em.sites (.binary op left right span) scope) later
  | letIn {scope : Scope} {name : String} {value body : Expr} {span : Span}
      {names mid later : FreshNames} {a b : Predicate} {sites sites' : List Site}
      (hfree : scope.isBound name = false) (hwild : value.isWildcard = false)
      (hvalue : Derives scope value names a sites mid)
      (hbody : Derives (scope.bind name (.relation a)) body mid b sites' later) :
      Derives scope (.letIn name value body span) names b (sites ++ sites') later
  | comprehension {scope : Scope} {style : Style} {scalars : List String}
      {constraint body : Expr} {span : Span} {names mid mid' later : FreshNames}
      {c b : Predicate} {sites sites' : List Site} {em : Emission}
      (hfree : firstRebound? scope [] scalars = none)
      (hwild : constraint.isWildcard = false) (hwild' : body.isWildcard = false)
      (hconstraint : Derives scope constraint names c sites mid)
      (harity : c.arity = scalars.length)
      (hbody : Derives (comprehensionScope scope c scalars) body mid b sites' mid')
      (hemit : emitComprehension style scalars c b mid' = .ok (em, later)) :
      Derives scope (.comprehension style scalars constraint body span) names
        em.result.predicate
        (sites ++ sites' ++ em.sites (.comprehension style scalars constraint body span) scope)
        later

/-! ## Runs that succeed -/

variable {options : Options} {scope : Scope} {e : Expr} {names later : FreshNames}
variable {c : Compiled} {commands : List Command}

theorem locate_eq_ok {α : Type} {emit : Emit α} {r : α × FreshNames} :
    locate e scope emit names = .ok r ↔ emit names = .ok r := by
  unfold locate
  cases emit names <;> simp [Except.mapError]

theorem operand_eq_ok {m : CompileM Compiled} {r : Compiled × FreshNames} :
    operand e scope m names = .ok r ↔ e.isWildcard = false ∧ m names = .ok r := by
  unfold operand
  cases e.isWildcard <;> simp [throw_eq_ok]

theorem define_eq_ok {before : List Command} {emit : Emit Emission} :
    define options e scope before emit names = .ok (c, later) ↔
      ∃ em block, emit names = .ok (em, later) ∧
        siteCommands options (em.sites e scope) = .ok block ∧
        c = ⟨em.result.predicate, ⟨before ++ block⟩⟩ := by
  simp only [define, locate_eq_ok, bind_eq_ok, lift_eq_ok, pure_eq_ok, siteCommands_sites]
  constructor
  · rintro ⟨em, mid, hemit, block, _, ⟨hblock, rfl⟩, rfl, rfl⟩
    exact ⟨em, block, hemit, hblock, rfl⟩
  · rintro ⟨em, block, hemit, hblock, rfl⟩
    exact ⟨em, later, hemit, block, later, ⟨hblock, rfl⟩, rfl, rfl⟩

theorem ensureVariables_eq_ok {scalars : List String} {p : Predicate} {u : Unit} :
    ensureVariables scalars p = .ok u ↔ p.arity = scalars.length := by
  simp [ensureVariables, ensureArity, ensure_eq_ok]

/-! ## Equations of the compiler -/

theorem compile_unary {op : UnaryOp} (hop : op ≠ .reflexiveClosure) (inner : Expr)
    (span : Span) :
    compile options scope (.unary op inner span) = (do
      let a ← operand inner scope (compile options scope inner)
      define options (.unary op inner span) scope a.program.commands
        (emitUnary op a.predicate scope)) := by
  cases op with
  | reflexiveClosure => exact (hop rfl).elim
  | _ => rfl

theorem compile_dropFirst {left right : Expr} (hleft : left.isWildcard = true)
    (hright : right.isWildcard = false) (span : Span) :
    compile options scope (.binary .join left right span) = (do
      let b ← operand right scope (compile options scope right)
      define options (.binary .join left right span) scope b.program.commands
        (emitDropFirst b.predicate)) := by
  simp only [compile, hleft, hright]

theorem compile_dropLast {left right : Expr} (hleft : left.isWildcard = false)
    (hright : right.isWildcard = true) (span : Span) :
    compile options scope (.binary .join left right span) = (do
      let a ← operand left scope (compile options scope left)
      define options (.binary .join left right span) scope a.program.commands
        (emitDropLast a.predicate)) := by
  simp only [compile, hleft, hright]

theorem compile_binary {op : BinaryOp} {left right : Expr}
    (hop : op = .join → left.isWildcard = false ∧ right.isWildcard = false) (span : Span) :
    compile options scope (.binary op left right span) = (do
      let a ← operand left scope (compile options scope left)
      let b ← operand right scope (compile options scope right)
      define options (.binary op left right span) scope
        (a.program.commands ++ b.program.commands)
        (emitBinary op a.predicate b.predicate scope)) := by
  cases op with
  | join =>
      obtain ⟨hleft, hright⟩ := hop rfl
      simp only [compile, hleft, hright]
  | _ => rfl

theorem compile_wildcardJoin {left right : Expr} (hleft : left.isWildcard = true)
    (hright : right.isWildcard = true) (span : Span) :
    compile options scope (.binary .join left right span) =
      throw (.located (.binary .join left right span) scope .misplacedWildcard) := by
  simp only [compile, hleft, hright]

/-- The forms of a binary node.  A join with a wildcard on one side drops a column of the other
side, and a join of two wildcards has no meaning.  Every other node has two operands. -/
inductive BinaryForm (left right : Expr) : BinaryOp → Prop where
  | dropFirst (hleft : left.isWildcard = true) (hright : right.isWildcard = false) :
      BinaryForm left right .join
  | dropLast (hleft : left.isWildcard = false) (hright : right.isWildcard = true) :
      BinaryForm left right .join
  | wildcards (hleft : left.isWildcard = true) (hright : right.isWildcard = true) :
      BinaryForm left right .join
  | operands {op : BinaryOp}
      (hop : op = .join → left.isWildcard = false ∧ right.isWildcard = false) :
      BinaryForm left right op

theorem binaryForm (op : BinaryOp) (left right : Expr) : BinaryForm left right op := by
  by_cases hop : op = .join
  · subst hop
    cases hleft : left.isWildcard with
    | true =>
        cases hright : right.isWildcard with
        | true => exact .wildcards hleft hright
        | false => exact .dropFirst hleft hright
    | false =>
        cases hright : right.isWildcard with
        | true => exact .dropLast hleft hright
        | false => exact .operands fun _ => ⟨hleft, hright⟩
  · exact .operands fun h => (hop h).elim

theorem compile_letIn {name : String} (hfree : scope.isBound name = false) (value body : Expr)
    (span : Span) :
    compile options scope (.letIn name value body span) = (do
      let a ← operand value scope (compile options scope value)
      let b ← compile options (scope.bind name (.relation a.predicate)) body
      return ⟨b.predicate, ⟨a.program.commands ++ b.program.commands⟩⟩) := by
  simp only [compile, hfree, Bool.false_eq_true, if_false]

theorem compile_bound {name : String} (hbound : scope.isBound name = true) (value body : Expr)
    (span : Span) :
    compile options scope (.letIn name value body span) =
      throw (.located (.letIn name value body span) scope (.alreadyBound name)) := by
  simp only [compile, hbound, if_true]
  rfl

theorem compile_comprehension {scalars : List String}
    (hfree : firstRebound? scope [] scalars = none) (style : Style) (constraint body : Expr)
    (span : Span) :
    compile options scope (.comprehension style scalars constraint body span) = (do
      let c ← operand constraint scope (compile options scope constraint)
      locate (.comprehension style scalars constraint body span) scope
        (ensureVariables scalars c.predicate)
      let inner := comprehensionScope scope c.predicate scalars
      let b ← operand body inner (compile options inner body)
      define options (.comprehension style scalars constraint body span) scope
        (c.program.commands ++ b.program.commands)
        (emitComprehension style scalars c.predicate b.predicate)) := by
  simp only [compile, hfree]

theorem compile_rebound {scalars : List String} {name : String}
    (hbound : firstRebound? scope [] scalars = some name) (style : Style)
    (constraint body : Expr) (span : Span) :
    compile options scope (.comprehension style scalars constraint body span) =
      throw (.located (.comprehension style scalars constraint body span) scope
        (.alreadyBound name)) := by
  simp only [compile, hbound]
  rfl

/-! ## Compiling and deriving -/

/-- Every successful run of the compiler has a derivation. -/
theorem exists_derives_of_compile (h : compile options scope e names = .ok (c, later)) :
    ∃ sites, Derives scope e names c.predicate sites later ∧
      siteCommands options sites = .ok c.program.commands := by
  induction e generalizing scope names c later with
  | constant value span =>
      simp only [compile, define_eq_ok] at h
      obtain ⟨em, block, hemit, hblock, rfl⟩ := h
      exact ⟨_, .constant hemit, hblock⟩
  | name name span =>
      simp only [compile] at h
      cases hlookup : scope.lookup name with
      | none => simp [hlookup, throw_eq_ok] at h
      | some binding =>
          cases binding with
          | relation p =>
              simp only [hlookup, pure_eq_ok] at h
              obtain ⟨rfl, rfl⟩ := h
              exact ⟨[], .relation hlookup, rfl⟩
          | scalar binding =>
              simp only [hlookup, define_eq_ok] at h
              obtain ⟨em, block, hemit, hblock, rfl⟩ := h
              exact ⟨_, .scalar hlookup hemit, hblock⟩
  | formula text span =>
      simp only [compile, define_eq_ok] at h
      obtain ⟨em, block, hemit, hblock, rfl⟩ := h
      exact ⟨_, .formula hemit, hblock⟩
  | unary op inner span ih =>
      by_cases hop : op = .reflexiveClosure
      · subst hop
        simp [compile, throw_eq_ok] at h
      · rw [compile_unary hop] at h
        simp only [bind_eq_ok, operand_eq_ok, define_eq_ok] at h
        obtain ⟨a, mid, ⟨hwild, ha⟩, em, block, hemit, hblock, rfl⟩ := h
        obtain ⟨sites, hinner, hsites⟩ := ih ha
        exact ⟨_, .unary hop hwild hinner hemit,
          siteCommands_append_eq_ok.mpr ⟨_, _, hsites, hblock, rfl⟩⟩
  | binary op left right span ihleft ihright =>
      cases binaryForm op left right with
      | dropFirst hleft hright =>
          rw [compile_dropFirst hleft hright] at h
          simp only [bind_eq_ok, operand_eq_ok, define_eq_ok] at h
          obtain ⟨b, mid, ⟨-, hb⟩, em, block, hemit, hblock, rfl⟩ := h
          obtain ⟨sites, hinner, hsites⟩ := ihright hb
          exact ⟨_, .dropFirst hleft hright hinner hemit,
            siteCommands_append_eq_ok.mpr ⟨_, _, hsites, hblock, rfl⟩⟩
      | dropLast hleft hright =>
          rw [compile_dropLast hleft hright] at h
          simp only [bind_eq_ok, operand_eq_ok, define_eq_ok] at h
          obtain ⟨a, mid, ⟨-, ha⟩, em, block, hemit, hblock, rfl⟩ := h
          obtain ⟨sites, hinner, hsites⟩ := ihleft ha
          exact ⟨_, .dropLast hleft hright hinner hemit,
            siteCommands_append_eq_ok.mpr ⟨_, _, hsites, hblock, rfl⟩⟩
      | wildcards hleft hright => simp [compile_wildcardJoin hleft hright, throw_eq_ok] at h
      | operands hop =>
          rw [compile_binary hop] at h
          simp only [bind_eq_ok, operand_eq_ok, define_eq_ok] at h
          obtain ⟨a, mid, ⟨hwild, ha⟩, b, mid', ⟨hwild', hb⟩, em, block, hemit, hblock, rfl⟩ := h
          obtain ⟨sites, hfirst, hsites⟩ := ihleft ha
          obtain ⟨sites', hsecond, hsites'⟩ := ihright hb
          refine ⟨_, .binary hwild hwild' hfirst hsecond hemit, ?_⟩
          exact siteCommands_append_eq_ok.mpr
            ⟨_, _, siteCommands_append_eq_ok.mpr ⟨_, _, hsites, hsites', rfl⟩, hblock, rfl⟩
  | comprehension style scalars constraint body span ihconstraint ihbody =>
      cases hfree : firstRebound? scope [] scalars with
      | some name => simp [compile_rebound hfree, throw_eq_ok] at h
      | none =>
          rw [compile_comprehension hfree] at h
          simp only [bind_eq_ok, operand_eq_ok, locate_eq_ok, lift_eq_ok,
            ensureVariables_eq_ok, define_eq_ok] at h
          obtain ⟨c', mid, ⟨hwild, hc⟩, _, _, ⟨harity, rfl⟩, b, mid', ⟨hwild', hb⟩, em, block,
            hemit, hblock, rfl⟩ := h
          obtain ⟨sites, hconstraint, hsites⟩ := ihconstraint hc
          obtain ⟨sites', hbody, hsites'⟩ := ihbody hb
          refine ⟨_, .comprehension hfree hwild hwild' hconstraint harity hbody hemit, ?_⟩
          exact siteCommands_append_eq_ok.mpr
            ⟨_, _, siteCommands_append_eq_ok.mpr ⟨_, _, hsites, hsites', rfl⟩, hblock, rfl⟩
  | letIn name value body span ihvalue ihbody =>
      cases hfree : scope.isBound name with
      | true => simp [compile_bound hfree, throw_eq_ok] at h
      | false =>
          rw [compile_letIn hfree] at h
          simp only [bind_eq_ok, operand_eq_ok, pure_eq_ok] at h
          obtain ⟨a, mid, ⟨hwild, ha⟩, b, _, hb, rfl, rfl⟩ := h
          obtain ⟨sites, hvalue, hsites⟩ := ihvalue ha
          obtain ⟨sites', hbody, hsites'⟩ := ihbody hb
          exact ⟨_, .letIn hfree hwild hvalue hbody,
            siteCommands_append_eq_ok.mpr ⟨_, _, hsites, hsites', rfl⟩⟩

/-- A derivation whose sites can be printed is a successful run of the compiler. -/
theorem compile_of_derives {p : Predicate} {sites : List Site}
    (h : Derives scope e names p sites later)
    (hsites : siteCommands options sites = .ok commands) :
    compile options scope e names = .ok (⟨p, ⟨commands⟩⟩, later) := by
  induction h generalizing commands with
  | relation hlookup =>
      cases hsites
      simp only [compile, hlookup, pure_eq_ok, and_self]
  | scalar hlookup hemit =>
      simp only [compile, hlookup, define_eq_ok]
      exact ⟨_, commands, hemit, hsites, rfl⟩
  | constant hemit =>
      simp only [compile, define_eq_ok]
      exact ⟨_, commands, hemit, hsites, rfl⟩
  | formula hemit =>
      simp only [compile, define_eq_ok]
      exact ⟨_, commands, hemit, hsites, rfl⟩
  | unary hop hwild hinner hemit ih =>
      obtain ⟨before, block, hbefore, hblock, rfl⟩ := siteCommands_append_eq_ok.mp hsites
      rw [compile_unary hop]
      simp only [bind_eq_ok, operand_eq_ok, define_eq_ok]
      exact ⟨_, _, ⟨hwild, ih hbefore⟩, _, block, hemit, hblock, rfl⟩
  | dropFirst hleft hright hinner hemit ih =>
      obtain ⟨before, block, hbefore, hblock, rfl⟩ := siteCommands_append_eq_ok.mp hsites
      rw [compile_dropFirst hleft hright]
      simp only [bind_eq_ok, operand_eq_ok, define_eq_ok]
      exact ⟨_, _, ⟨hright, ih hbefore⟩, _, block, hemit, hblock, rfl⟩
  | dropLast hleft hright hinner hemit ih =>
      obtain ⟨before, block, hbefore, hblock, rfl⟩ := siteCommands_append_eq_ok.mp hsites
      rw [compile_dropLast hleft hright]
      simp only [bind_eq_ok, operand_eq_ok, define_eq_ok]
      exact ⟨_, _, ⟨hleft, ih hbefore⟩, _, block, hemit, hblock, rfl⟩
  | binary hleft hright hfirst hsecond hemit ihfirst ihsecond =>
      obtain ⟨before, block, hbefore, hblock, rfl⟩ := siteCommands_append_eq_ok.mp hsites
      obtain ⟨first, second, hfirst', hsecond', rfl⟩ := siteCommands_append_eq_ok.mp hbefore
      rw [compile_binary fun _ => ⟨hleft, hright⟩]
      simp only [bind_eq_ok, operand_eq_ok, define_eq_ok]
      exact ⟨_, _, ⟨hleft, ihfirst hfirst'⟩, _, _, ⟨hright, ihsecond hsecond'⟩, _, block, hemit,
        hblock, rfl⟩
  | letIn hfree hwild hvalue hbody ihvalue ihbody =>
      obtain ⟨first, second, hfirst, hsecond, rfl⟩ := siteCommands_append_eq_ok.mp hsites
      rw [compile_letIn hfree]
      simp only [bind_eq_ok, operand_eq_ok, pure_eq_ok]
      exact ⟨_, _, ⟨hwild, ihvalue hfirst⟩, _, _, ihbody hsecond, rfl, rfl⟩
  | comprehension hfree hwild hwild' hconstraint harity hbody hemit ihconstraint ihbody =>
      obtain ⟨before, block, hbefore, hblock, rfl⟩ := siteCommands_append_eq_ok.mp hsites
      obtain ⟨first, second, hfirst, hsecond, rfl⟩ := siteCommands_append_eq_ok.mp hbefore
      rw [compile_comprehension hfree]
      simp only [bind_eq_ok, operand_eq_ok, locate_eq_ok, lift_eq_ok, ensureVariables_eq_ok,
        define_eq_ok]
      exact ⟨_, _, ⟨hwild, ihconstraint hfirst⟩, (), _, ⟨harity, rfl⟩, _, _,
        ⟨hwild', ihbody hsecond⟩, _, block, hemit, hblock, rfl⟩

/-! ## Where definitions come from -/

/-- `Emits scope em` says that some node compiled in `scope` gives the emission `em`. -/
inductive Emits (scope : Scope) : Emission → Prop where
  | scalar {name : String} {binding : ScalarBinding} {names later : FreshNames} {em : Emission}
      (hlookup : scope.lookup name = some (.scalar binding))
      (hemit : emitScalar name binding names = .ok (em, later)) : Emits scope em
  | constant {value : Constant} {names later : FreshNames} {em : Emission}
      (hemit : emitConstant value names = .ok (em, later)) : Emits scope em
  | formula {text : String} {names later : FreshNames} {em : Emission}
      (hemit : emitFormula text scope names = .ok (em, later)) : Emits scope em
  | unary {op : UnaryOp} {a : Predicate} {names later : FreshNames} {em : Emission}
      (hemit : emitUnary op a scope names = .ok (em, later)) : Emits scope em
  | dropLast {a : Predicate} {names later : FreshNames} {em : Emission}
      (hemit : emitDropLast a names = .ok (em, later)) : Emits scope em
  | binary {op : BinaryOp} {a b : Predicate} {names later : FreshNames} {em : Emission}
      (hemit : emitBinary op a b scope names = .ok (em, later)) : Emits scope em
  | comprehension {style : Style} {scalars : List String} {c b : Predicate}
      {names later : FreshNames} {em : Emission}
      (hemit : emitComprehension style scalars c b names = .ok (em, later)) : Emits scope em

/-- Every definition of a derivation is emitted in the scope of its site. -/
theorem Derives.emits {p : Predicate} {sites : List Site}
    (h : Derives scope e names p sites later) :
    ∀ site ∈ sites, ∃ em, Emits site.scope em ∧ site.definition ∈ em.definitions := by
  have hown : ∀ {scope : Scope} {em : Emission} (e : Expr), Emits scope em →
      ∀ site ∈ em.sites e scope,
        ∃ em, Emits site.scope em ∧ site.definition ∈ em.definitions := by
    intro scope em e hem site hsite
    obtain ⟨d, hd, rfl⟩ := Emission.mem_sites.mp hsite
    exact ⟨em, hem, hd⟩
  induction h with
  | relation hlookup => simp
  | scalar hlookup hemit => exact hown _ (.scalar hlookup hemit)
  | constant hemit => exact hown _ (.constant hemit)
  | formula hemit => exact hown _ (.formula hemit)
  | unary hop hwild hinner hemit ih =>
      exact List.forall_mem_append.mpr ⟨ih, hown _ (.unary hemit)⟩
  | @dropFirst scope left right span names mid later b sites em hleft hright hinner hemit ih =>
      have hemit : emitUnary .wildcardApply b scope mid = .ok (em, later) := hemit
      exact List.forall_mem_append.mpr ⟨ih, hown _ (.unary hemit)⟩
  | dropLast hleft hright hinner hemit ih =>
      exact List.forall_mem_append.mpr ⟨ih, hown _ (.dropLast hemit)⟩
  | binary hleft hright hfirst hsecond hemit ihfirst ihsecond =>
      exact List.forall_mem_append.mpr
        ⟨List.forall_mem_append.mpr ⟨ihfirst, ihsecond⟩, hown _ (.binary hemit)⟩
  | letIn hfree hwild hvalue hbody ihvalue ihbody =>
      exact List.forall_mem_append.mpr ⟨ihvalue, ihbody⟩
  | comprehension hfree hwild hwild' hconstraint harity hbody hemit ihconstraint ihbody =>
      exact List.forall_mem_append.mpr
        ⟨List.forall_mem_append.mpr ⟨ihconstraint, ihbody⟩, hown _ (.comprehension hemit)⟩

end RelQuery.Compile
