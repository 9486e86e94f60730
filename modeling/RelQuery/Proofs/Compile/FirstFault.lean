import RelQuery.Proofs.Typing.Faults

/-!
# The first fault of a query

The compiler visits the operands of a node from left to right and stops at the first one that
fails.  The failure of an operand is the failure of every node around it, so a failure is located
once: at a node none of whose visited operands fails.  That node fails in the same way when it is
compiled alone in its scope.
-/

namespace RelQuery

theorem Expr.self_mem_nodes (e : Expr) : e ∈ e.nodes := by
  cases e <;> simp [nodes]

namespace Compile

variable {options : Options} {scope : Scope} {e : Expr} {names later : FreshNames}
variable {failure : CompileError}

/-! ## Failing runs -/

theorem bind_eq_error {α β : Type} {m : CompileM α} {f : α → CompileM β} :
    (m >>= f) names = .error failure ↔
      m names = .error failure ∨ ∃ x mid, m names = .ok (x, mid) ∧ f x mid = .error failure := by
  cases h : m names with
  | error found => simp [bind_of_error h]
  | ok result =>
      obtain ⟨x, mid⟩ := result
      simp [bind_of_ok h]

theorem locate_eq_error {α : Type} {emit : Emit α} (h : locate e scope emit names = .error failure) :
    ∃ cause, failure = .located e scope cause := by
  unfold locate at h
  cases hemit : emit names with
  | ok result =>
      rw [hemit] at h
      cases h
  | error cause =>
      rw [hemit] at h
      cases h
      exact ⟨cause, rfl⟩

theorem locate_ensureVariables {scalars : List String} {p : Predicate}
    (harity : p.arity = scalars.length) :
    locate e scope (ensureVariables scalars p) names = .ok ((), names) := by
  rw [locate_eq_ok]
  exact lift_of_ok (ensureVariables_eq_ok.mpr harity) names

theorem throw_eq_error {found : CompileError} :
    (throw found : CompileM Compiled) names = .error failure ↔ found = failure := by
  simp [throw, throwThe, MonadExceptOf.throw, StateT.lift, bind, Except.bind]

/-- Where the wildcard is unbound, it fails as an operand in the way it fails alone. -/
theorem operand_compile (hwild : scope.lookup wildcard = none) (options : Options) (e : Expr) :
    operand e scope (compile options scope e) = compile options scope e := by
  unfold operand
  by_cases h : e.isWildcard = true
  · obtain ⟨span, rfl⟩ := Expr.isWildcard_eq_true_iff.mp h
    simp only [h, if_true, compile, hwild]
    rfl
  · rw [if_neg h]

/-! ## Places -/

/-- A place in the run of the compiler: a node, its scope and the names given out so far. -/
structure Place where
  scope : Scope
  expr : Expr
  names : FreshNames

def Place.run (options : Options) (place : Place) : Except CompileError (Compiled × FreshNames) :=
  compile options place.scope place.expr place.names

/-- `Visits options place operand` says that the compiler, to compile the node at `place`, comes to
its operand at `operand`.  An operand is visited after the ones to its left have been compiled and
checked, and the body of a let or a comprehension in the scope with the new bindings. -/
inductive Visits (options : Options) : Place → Place → Prop where
  | unary {scope : Scope} {op : UnaryOp} {inner : Expr} {span : Span} {names : FreshNames}
      (hop : op ≠ .reflexiveClosure) :
      Visits options ⟨scope, .unary op inner span, names⟩ ⟨scope, inner, names⟩
  | dropFirst {scope : Scope} {left right : Expr} {span : Span} {names : FreshNames}
      (hleft : left.isWildcard = true) (hright : right.isWildcard = false) :
      Visits options ⟨scope, .binary .join left right span, names⟩ ⟨scope, right, names⟩
  | left {scope : Scope} {op : BinaryOp} {left right : Expr} {span : Span} {names : FreshNames}
      (hleft : op = .join → left.isWildcard = false) :
      Visits options ⟨scope, .binary op left right span, names⟩ ⟨scope, left, names⟩
  | right {scope : Scope} {op : BinaryOp} {left right : Expr} {span : Span}
      {names mid : FreshNames} {a : Compiled}
      (hboth : op = .join → left.isWildcard = false ∧ right.isWildcard = false)
      (hleft : compile options scope left names = .ok (a, mid)) :
      Visits options ⟨scope, .binary op left right span, names⟩ ⟨scope, right, mid⟩
  | value {scope : Scope} {name : String} {value body : Expr} {span : Span} {names : FreshNames}
      (hfree : scope.isBound name = false) :
      Visits options ⟨scope, .letIn name value body span, names⟩ ⟨scope, value, names⟩
  | letBody {scope : Scope} {name : String} {value body : Expr} {span : Span}
      {names mid : FreshNames} {a : Compiled} (hfree : scope.isBound name = false)
      (hvalue : compile options scope value names = .ok (a, mid)) :
      Visits options ⟨scope, .letIn name value body span, names⟩
        ⟨scope.bind name (.relation a.predicate), body, mid⟩
  | constraint {scope : Scope} {style : Style} {scalars : List String} {constraint body : Expr}
      {span : Span} {names : FreshNames} (hfree : firstRebound? scope [] scalars = none) :
      Visits options ⟨scope, .comprehension style scalars constraint body span, names⟩
        ⟨scope, constraint, names⟩
  | comprehensionBody {scope : Scope} {style : Style} {scalars : List String}
      {constraint body : Expr} {span : Span} {names mid : FreshNames} {c : Compiled}
      (hfree : firstRebound? scope [] scalars = none)
      (hconstraint : compile options scope constraint names = .ok (c, mid))
      (harity : c.predicate.arity = scalars.length) :
      Visits options ⟨scope, .comprehension style scalars constraint body span, names⟩
        ⟨comprehensionScope scope c.predicate scalars, body, mid⟩

variable {place operand : Place}

/-- The compiler comes from one place to another, operand by operand. -/
def Reaches (options : Options) : Place → Place → Prop :=
  Relation.ReflTransGen (Visits options)

/-- Places at which the wildcard is not bound and will not be. -/
structure Place.Sound (place : Place) : Prop where
  scope : place.scope.WellScoped
  wildcard : place.scope.lookup wildcard = none
  binders : RelQuery.wildcard ∉ place.expr.binders

theorem Visits.sound (h : Visits options place operand) (hplace : place.Sound) : operand.Sound := by
  obtain ⟨hscope, hwild, hbinders⟩ := hplace
  cases h with
  | unary hop => exact ⟨hscope, hwild, hbinders⟩
  | dropFirst hleft hright =>
      exact ⟨hscope, hwild, fun hmem => hbinders (List.mem_append_right _ hmem)⟩
  | left hleft => exact ⟨hscope, hwild, fun hmem => hbinders (List.mem_append_left _ hmem)⟩
  | right hboth hleft => exact ⟨hscope, hwild, fun hmem => hbinders (List.mem_append_right _ hmem)⟩
  | value hfree =>
      simp only [Expr.binders, List.mem_cons, List.mem_append, not_or] at hbinders
      exact ⟨hscope, hwild, hbinders.2.1⟩
  | letBody hfree hvalue =>
      simp only [Expr.binders, List.mem_cons, List.mem_append, not_or] at hbinders
      obtain ⟨sites, hderives, -⟩ := exists_derives_of_compile hvalue
      have hunbound := Scope.isBound_eq_false_iff.mp hfree
      refine ⟨hscope.bind_relation hunbound (hderives.wellScoped hscope).1, ?_, hbinders.2.2⟩
      rw [Scope.lookup_bind, if_neg hbinders.1]
      exact hwild
  | constraint hfree =>
      simp only [Expr.binders, List.mem_append, not_or] at hbinders
      exact ⟨hscope, hwild, hbinders.2.1⟩
  | comprehensionBody hfree hconstraint harity =>
      simp only [Expr.binders, List.mem_append, not_or] at hbinders
      obtain ⟨sites, hderives, -⟩ := exists_derives_of_compile hconstraint
      obtain ⟨hnodup, -, hunbound⟩ := firstRebound?_eq_none hfree
      exact ⟨wellScoped_comprehensionScope hscope hnodup hunbound harity
          (hderives.wellScoped hscope).1,
        lookup_comprehensionScope_eq_none hscope hnodup hunbound harity hbinders.1 hwild,
        hbinders.2.2⟩

/-! ## Failures pass outwards -/

/-- The failure of a visited operand is the failure of the node. -/
theorem Visits.error (h : Visits options place operand) (hplace : place.Sound)
    (hfailed : operand.run options = .error failure) : place.run options = .error failure := by
  have hwild := hplace.wildcard
  have hwild' := (h.sound hplace).wildcard
  unfold Place.run at hfailed ⊢
  cases h with
  | unary hop =>
      rw [compile_unary hop, operand_compile hwild]
      exact bind_of_error hfailed
  | dropFirst hleft hright =>
      rw [compile_dropFirst hleft hright, operand_compile hwild]
      exact bind_of_error hfailed
  | @left scope op left right span names hleft =>
      by_cases hright : op = .join ∧ right.isWildcard = true
      · obtain ⟨rfl, hright⟩ := hright
        rw [compile_dropLast (hleft rfl) hright, operand_compile hwild]
        exact bind_of_error hfailed
      · have hboth : op = .join → left.isWildcard = false ∧ right.isWildcard = false :=
          fun hop => ⟨hleft hop, by simpa [hop] using hright⟩
        rw [compile_binary hboth, operand_compile hwild]
        exact bind_of_error hfailed
  | right hboth hleft =>
      rw [compile_binary hboth, operand_compile hwild, operand_compile hwild, bind_of_ok hleft]
      exact bind_of_error hfailed
  | value hfree =>
      rw [compile_letIn hfree, operand_compile hwild]
      exact bind_of_error hfailed
  | letBody hfree hvalue =>
      rw [compile_letIn hfree, operand_compile hwild, bind_of_ok hvalue]
      exact bind_of_error hfailed
  | constraint hfree =>
      rw [compile_comprehension hfree, operand_compile hwild]
      exact bind_of_error hfailed
  | comprehensionBody hfree hconstraint harity =>
      rw [compile_comprehension hfree, operand_compile hwild, bind_of_ok hconstraint,
        bind_of_ok (locate_ensureVariables harity)]
      simp only [operand_compile hwild']
      exact bind_of_error hfailed

theorem Reaches.sound (h : Reaches options place operand) (hplace : place.Sound) :
    operand.Sound := by
  induction h with
  | refl => exact hplace
  | tail _ hvisit ih => exact hvisit.sound ih

/-- The failure at a place is the failure of every node on the way to it. -/
theorem Reaches.error (h : Reaches options place operand) (hplace : place.Sound)
    (hfailed : operand.run options = .error failure) : place.run options = .error failure := by
  induction h using Relation.ReflTransGen.head_induction_on with
  | refl => exact hfailed
  | head hvisit _ ih => exact hvisit.error hplace (ih (hvisit.sound hplace))

/-! ## Failures have a place -/

/-- A failure is raised by the node at a place: it says where the node is, and none of the operands
that are visited fails. -/
structure Place.Raises (options : Options) (place : Place) (failure : CompileError) : Prop where
  located : ∃ cause, failure = .located place.expr place.scope cause
  operands : ∀ operand, Visits options place operand → ∃ result, operand.run options = .ok result

/-- A node that fails though all visited operands succeed places the failure at itself. -/
theorem located_of_run (hplace : place.Sound) (hfailed : place.run options = .error failure)
    (hoperands : ∀ operand, Visits options place operand →
      ∃ result, operand.run options = .ok result) :
    ∃ cause, failure = .located place.expr place.scope cause := by
  obtain ⟨hscope, hwild, hbinders⟩ := hplace
  obtain ⟨scope, e, names⟩ := place
  unfold Place.run at hfailed hoperands
  cases e with
  | constant value span =>
      simp only [compile] at hfailed
      exact locate_eq_error hfailed
  | formula text span =>
      simp only [compile] at hfailed
      exact locate_eq_error hfailed
  | name name span =>
      simp only [compile] at hfailed
      cases hlookup : scope.lookup name with
      | none =>
          simp only [hlookup, throw_eq_error] at hfailed
          exact ⟨_, hfailed.symm⟩
      | some binding =>
          cases binding with
          | relation p =>
              simp only [hlookup] at hfailed
              cases hfailed
          | scalar binding =>
              simp only [hlookup] at hfailed
              exact locate_eq_error hfailed
  | unary op inner span =>
      by_cases hop : op = .reflexiveClosure
      · subst hop
        exact ⟨_, (throw_eq_error.mp hfailed).symm⟩
      · obtain ⟨⟨a, mid⟩, ha⟩ := hoperands _ (.unary hop)
        rw [compile_unary hop, operand_compile hwild, bind_of_ok ha] at hfailed
        exact locate_eq_error hfailed
  | binary op left right span =>
      cases binaryForm op left right with
      | dropFirst hleft hright =>
          obtain ⟨⟨b, mid⟩, hb⟩ := hoperands _ (.dropFirst hleft hright)
          rw [compile_dropFirst hleft hright, operand_compile hwild, bind_of_ok hb] at hfailed
          exact locate_eq_error hfailed
      | dropLast hleft hright =>
          obtain ⟨⟨a, mid⟩, ha⟩ := hoperands _ (.left fun _ => hleft)
          rw [compile_dropLast hleft hright, operand_compile hwild, bind_of_ok ha] at hfailed
          exact locate_eq_error hfailed
      | wildcards hleft hright =>
          rw [compile_wildcardJoin hleft hright] at hfailed
          exact ⟨_, (throw_eq_error.mp hfailed).symm⟩
      | operands hop =>
          obtain ⟨⟨a, mid⟩, ha⟩ := hoperands _ (.left fun h => (hop h).1)
          obtain ⟨⟨b, mid'⟩, hb⟩ := hoperands _ (.right hop ha)
          rw [compile_binary hop, operand_compile hwild, operand_compile hwild, bind_of_ok ha,
            bind_of_ok hb] at hfailed
          exact locate_eq_error hfailed
  | comprehension style scalars constraint body span =>
      cases hfree : firstRebound? scope [] scalars with
      | some name =>
          rw [compile_rebound hfree] at hfailed
          exact ⟨_, (throw_eq_error.mp hfailed).symm⟩
      | none =>
          obtain ⟨⟨c, mid⟩, hc⟩ := hoperands _ (.constraint hfree)
          rw [compile_comprehension hfree, operand_compile hwild, bind_of_ok hc] at hfailed
          rcases bind_eq_error.mp hfailed with hvariables | ⟨_, mid', hvariables, hfailed⟩
          · exact locate_eq_error hvariables
          · rw [locate_eq_ok, lift_eq_ok, ensureVariables_eq_ok] at hvariables
            obtain ⟨harity, rfl⟩ := hvariables
            have hbody : Visits options
                ⟨scope, .comprehension style scalars constraint body span, names⟩
                ⟨comprehensionScope scope c.predicate scalars, body, mid⟩ :=
              .comprehensionBody hfree hc harity
            have hwild' := (hbody.sound ⟨hscope, hwild, hbinders⟩).wildcard
            obtain ⟨⟨b, mid'⟩, hb⟩ := hoperands _ hbody
            simp only [operand_compile hwild'] at hfailed
            rw [bind_of_ok hb] at hfailed
            exact locate_eq_error hfailed
  | letIn name value body span =>
      cases hfree : scope.isBound name with
      | true =>
          rw [compile_bound hfree] at hfailed
          exact ⟨_, (throw_eq_error.mp hfailed).symm⟩
      | false =>
          obtain ⟨⟨a, mid⟩, ha⟩ := hoperands _ (.value hfree)
          obtain ⟨⟨b, mid'⟩, hb⟩ := hoperands _ (.letBody hfree ha)
          rw [compile_letIn hfree, operand_compile hwild, bind_of_ok ha, bind_of_ok hb] at hfailed
          cases hfailed

theorem Visits.size_lt (h : Visits options place operand) :
    operand.expr.size < place.expr.size := by
  cases h <;> simp only [Expr.size] <;> omega

theorem Visits.nodes_subset (h : Visits options place operand) :
    operand.expr.nodes ⊆ place.expr.nodes := by
  intro node hnode
  cases h <;> simp [Expr.nodes, hnode]

/-- Every failure is raised at some place that the compiler reaches. -/
theorem exists_raises (hplace : place.Sound) (hfailed : place.run options = .error failure) :
    ∃ fault, Reaches options place fault ∧ fault.run options = .error failure ∧
      fault.Raises options failure := by
  induction hsize : place.expr.size using Nat.strong_induction_on generalizing place with
  | _ size ih =>
      by_cases hvisit : ∃ operand, Visits options place operand ∧
          operand.run options = .error failure
      · obtain ⟨operand, hvisit, hoperand⟩ := hvisit
        obtain ⟨fault, hreaches, hfault⟩ :=
          ih _ (hsize ▸ hvisit.size_lt) (hvisit.sound hplace) hoperand rfl
        exact ⟨fault, .head hvisit hreaches, hfault⟩
      · -- A visited operand that failed would have failed with the failure of the node.
        have hoperands : ∀ operand, Visits options place operand →
            ∃ result, operand.run options = .ok result := by
          intro operand hoperand
          cases hrun : operand.run options with
          | ok result => exact ⟨result, rfl⟩
          | error found =>
              have hfound := (hoperand.error hplace hrun).symm.trans hfailed
              cases hfound
              exact (hvisit ⟨operand, hoperand, hrun⟩).elim
        exact ⟨place, .refl, hfailed, located_of_run hplace hfailed hoperands, hoperands⟩

theorem Reaches.mem_nodes (h : Reaches options place operand) :
    operand.expr ∈ place.expr.nodes := by
  induction h using Relation.ReflTransGen.head_induction_on with
  | refl => exact operand.expr.self_mem_nodes
  | head hvisit _ ih => exact hvisit.nodes_subset ih

end Compile

theorem Expr.compile_eq_error {e : Expr} {scope : Scope} {options : Compile.Options}
    {failure : CompileError} :
    e.compile scope options = .error failure ↔
      Compile.compile options scope e (.inScope scope) = .error failure := by
  unfold Expr.compile StateT.run'
  cases Compile.compile options scope e (.inScope scope) with
  | error found => simp [Functor.map, Except.map]
  | ok result => simp [Functor.map, Except.map]

/-- A failure is the first fault of a query.  It names the span, the kind and the scope of a node
that the compiler reaches.  This node fails in the same way when it is compiled alone in its scope,
no operand that is visited for it fails, and the nodes around it fail with its failure. -/
theorem failure_at_first_fault {inputs : List (String × List ColumnType)} {scope : Scope}
    {e : Expr} {options : Compile.Options} {failure : CompileError}
    (hinputs : Scope.ofInputs inputs = .ok scope) (hnames : wildcard ∉ inputs.map Prod.fst)
    (hbinders : wildcard ∉ e.binders) (hfailed : e.compile scope options = .error failure) :
    ∃ fault : Compile.Place,
      Compile.Reaches options ⟨scope, e, .inScope scope⟩ fault ∧ fault.expr ∈ e.nodes ∧
      failure.failing = fault.expr.span ∧ failure.kind = fault.expr.kind ∧
      failure.scope = fault.scope.snapshot ∧
      (∀ options, fault.expr.compile fault.scope options = .error failure) ∧
      (∀ operand, Compile.Visits options fault operand →
        ∃ result, operand.run options = .ok result) ∧
      ∀ place, Compile.Reaches options ⟨scope, e, .inScope scope⟩ place →
        Compile.Reaches options place fault → place.run options = .error failure := by
  have hscope := Scope.wellScoped_ofInputs hinputs
  have hwild : scope.lookup wildcard = none := by
    rw [Option.eq_none_iff_forall_ne_some]
    intro binding hbinding
    obtain ⟨types, hmem, -⟩ := (Scope.lookup_ofInputs hinputs).mp hbinding
    exact hnames (List.mem_map_of_mem hmem)
  have hroot : Compile.Place.Sound ⟨scope, e, .inScope scope⟩ := ⟨hscope, hwild, hbinders⟩
  obtain ⟨fault, hreaches, hfault, ⟨cause, rfl⟩, hoperands⟩ :=
    Compile.exists_raises hroot (Expr.compile_eq_error.mp hfailed)
  have hsound := hreaches.sound hroot
  refine ⟨fault, hreaches, hreaches.mem_nodes, rfl, rfl, rfl, ?_, hoperands, ?_⟩
  · -- The failure depends on the types in scope only, and not on the names given out before.
    intro options
    have hinfer := (Compile.compile_eq_error_iff hsound.scope).mp hfault
    exact Expr.compile_eq_error.mpr ((Compile.compile_eq_error_iff hsound.scope).mpr hinfer)
  · intro place hplace hrest
    exact hrest.error (hplace.sound hroot) hfault

namespace Sample

/-- A query with an unknown name under two binders, read from the text of its spans. -/
def faulty : Expr :=
  let source := "x : person | let y = x.R2 | y.missing"
  .comprehension .keep ["x"] (.name "person" ⟨source, 4, 10⟩)
    (.letIn "y"
      (.binary .join (.name "x" ⟨source, 21, 22⟩) (.name "R2" ⟨source, 23, 25⟩) ⟨source, 21, 25⟩)
      (.binary .join (.name "y" ⟨source, 28, 29⟩) (.name "missing" ⟨source, 30, 37⟩)
        ⟨source, 28, 37⟩) ⟨source, 13, 37⟩) ⟨source, 0, 37⟩

/-- The failure of the query: the unknown name, with both bindings in scope. -/
def fault : CompileError where
  failing := ⟨"x : person | let y = x.R2 | y.missing", 30, 37⟩
  kind := "identifier"
  scope := ⟨[("person", .relation [.symbol]), ("R2", .relation [.symbol, .number]),
    ("x", .scalar .symbol), ("y", .relation [.number])]⟩
  cause := .unknownIdentifier "missing"

theorem compile_faulty (options : Compile.Options) :
    faulty.compile scope options = .error fault := by
  obtain ⟨comments⟩ := options
  cases comments <;> rfl

end Sample

theorem sample_failure_at_first_fault :
    Scope.ofInputs Sample.inputs = .ok Sample.scope ∧ wildcard ∉ Sample.inputs.map Prod.fst ∧
      wildcard ∉ Sample.faulty.binders ∧
      Sample.faulty.compile Sample.scope ⟨true⟩ = .error Sample.fault ∧
      ∃ place : Compile.Place,
        Compile.Reaches ⟨true⟩ ⟨Sample.scope, Sample.faulty, .inScope Sample.scope⟩ place ∧
        place.expr ∈ Sample.faulty.nodes ∧
        place.expr.span.start = 30 ∧ place.scope.snapshot = Sample.fault.scope ∧
        ∀ options, place.expr.compile place.scope options = .error Sample.fault := by
  have hnames : wildcard ∉ Sample.inputs.map Prod.fst := by decide
  have hbinders : wildcard ∉ Sample.faulty.binders := by decide
  have hfailed := Sample.compile_faulty ⟨true⟩
  obtain ⟨place, hreaches, hnode, hspan, -, hsnapshot, halone, -⟩ :=
    failure_at_first_fault Sample.scope_ofInputs hnames hbinders hfailed
  refine ⟨Sample.scope_ofInputs, hnames, hbinders, hfailed, place, hreaches, hnode, ?_,
    hsnapshot.symm, halone⟩
  rw [← hspan]
  rfl

end RelQuery
