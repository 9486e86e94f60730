import RelQuery.Proofs.Compile.FirstFault

/-!
# Where a wildcard may stand

A node of an expression is told by the path to it: the nodes on the way, each without the child that
the way goes through.  A wildcard has a meaning beside another operand of a join.  In every other
place a check for a bare wildcard comes before its compilation, with two exceptions: at the root and
in the body of a let it is looked up as a name.  At the root no name is bound but those of the
inputs.  In the body of a let it may be bound, and then it is a relation or a scalar like any other.
-/

namespace RelQuery

/-- A node without one of its children. -/
inductive Hole where
  | operand (op : UnaryOp) (span : Span)
  | left (op : BinaryOp) (right : Expr) (span : Span)
  | right (op : BinaryOp) (left : Expr) (span : Span)
  | constraint (style : Style) (names : List String) (body : Expr) (span : Span)
  | body (style : Style) (names : List String) (constraint : Expr) (span : Span)
  | value (bound : String) (body : Expr) (span : Span)
  | letBody (bound : String) (value : Expr) (span : Span)

namespace Hole

def fill : Hole → Expr → Expr
  | operand op span, e => .unary op e span
  | left op other span, e => .binary op e other span
  | right op other span, e => .binary op other e span
  | constraint style names other span, e => .comprehension style names e other span
  | body style names other span, e => .comprehension style names other e span
  | value bound other span, e => .letIn bound e other span
  | letBody bound other span, e => .letIn bound other e span

/-- The names that the node binds in the child. -/
def binds : Hole → List String
  | body _ names _ _ => names
  | letBody bound _ _ => [bound]
  | _ => []

def IsJoin : Hole → Prop
  | left op _ _ | right op _ _ => op = .join
  | _ => False

def IsLetBody : Hole → Prop
  | letBody .. => True
  | _ => False

/-- Whether the child is an operand of a join whose other operand is not the wildcard. -/
def IsBesideOperand : Hole → Prop
  | left op other _ | right op other _ => op = .join ∧ other.isWildcard = false
  | _ => False

@[simp]
theorem isWildcard_fill (hole : Hole) (e : Expr) : (hole.fill e).isWildcard = false := by
  cases hole <;> rfl

end Hole

/-- The nodes on the way to a node, from the root on. -/
abbrev Path := List Hole

namespace Path

def fill (path : Path) (e : Expr) : Expr :=
  path.foldr Hole.fill e

def binds (path : Path) : List String :=
  path.flatMap Hole.binds

/-- The path leads to an operand of a join, and the other operand is not the wildcard. -/
def Placed (path : Path) : Prop :=
  ∃ hole ∈ path.getLast?, hole.IsBesideOperand

/-- The path leads to the body of a let, and on the way the wildcard is bound. -/
def Captured (path : Path) : Prop :=
  (∃ hole ∈ path.getLast?, hole.IsLetBody) ∧ wildcard ∈ path.binds

theorem fill_cons (hole : Hole) (rest : Path) (e : Expr) :
    Path.fill (hole :: rest) e = hole.fill (rest.fill e) :=
  rfl

theorem isWildcard_fill_eq_false {path : Path} (hpath : path ≠ []) (e : Expr) :
    (path.fill e).isWildcard = false := by
  cases path with
  | nil => exact (hpath rfl).elim
  | cons hole rest => exact hole.isWildcard_fill _

theorem Placed.not_captured {path : Path} (h : path.Placed) : ¬ path.Captured := by
  rintro ⟨⟨hole, hlast, hlet⟩, -⟩
  obtain ⟨hole', hlast', hbeside⟩ := h
  obtain rfl : hole = hole' := Option.mem_unique hlast hlast'
  cases hole with
  | letBody => exact hbeside
  | _ => exact hlet

end Path

/-- The nodes of an expression are what its paths lead to. -/
theorem Expr.mem_nodes_iff_exists_path {e node : Expr} :
    node ∈ e.nodes ↔ ∃ path : Path, e = path.fill node := by
  constructor
  · intro h
    have hextend : ∀ (hole : Hole) (child : Expr), (∃ path : Path, child = path.fill node) →
        ∃ path : Path, hole.fill child = path.fill node := by
      rintro hole _ ⟨path, rfl⟩
      exact ⟨hole :: path, rfl⟩
    have hroot : ∃ path : Path, node = path.fill node := ⟨[], rfl⟩
    induction e with
    | constant | name | formula =>
        obtain rfl := List.mem_singleton.mp h
        exact hroot
    | unary op inner span ih =>
        rcases List.mem_cons.mp h with rfl | h
        · exact hroot
        · exact hextend (.operand op span) inner (ih h)
    | binary op left right span ihleft ihright =>
        simp only [nodes, List.mem_cons, List.mem_append] at h
        rcases h with rfl | h | h
        · exact hroot
        · exact hextend (.left op right span) left (ihleft h)
        · exact hextend (.right op left span) right (ihright h)
    | comprehension style names constraint body span ihconstraint ihbody =>
        simp only [nodes, List.mem_cons, List.mem_append] at h
        rcases h with rfl | h | h
        · exact hroot
        · exact hextend (.constraint style names body span) constraint (ihconstraint h)
        · exact hextend (.body style names constraint span) body (ihbody h)
    | letIn bound value body span ihvalue ihbody =>
        simp only [nodes, List.mem_cons, List.mem_append] at h
        rcases h with rfl | h | h
        · exact hroot
        · exact hextend (.value bound body span) value (ihvalue h)
        · exact hextend (.letBody bound value span) body (ihbody h)
  · rintro ⟨path, rfl⟩
    induction path with
    | nil => exact node.self_mem_nodes
    | cons hole rest ih =>
        change node ∈ (hole.fill (Path.fill rest node)).nodes
        cases hole <;> simp [Hole.fill, nodes, ih]

namespace Compile

variable {options : Options} {scope inner : Scope} {e : Expr} {names mid : FreshNames}
variable {hole : Hole} {path : Path} {failure : CompileError} {span : Span}

/-- Compiles a child: as an operand, or as it is when it is the body of a let. -/
def compileChild (options : Options) (inner : Scope) (hole : Hole) (e : Expr) : CompileM Compiled :=
  match hole with
  | .letBody .. => compile options inner e
  | _ => operand e inner (compile options inner e)

theorem operand_of_not_wildcard {m : CompileM Compiled} (h : e.isWildcard = false) :
    operand e scope m = m := by
  simp [operand, h]

theorem compileChild_of_letBody (h : hole.IsLetBody) :
    compileChild options inner hole e = compile options inner e := by
  cases hole with
  | letBody => rfl
  | _ => exact h.elim

theorem compileChild_of_not_wildcard (h : e.isWildcard = false) :
    compileChild options inner hole e = compile options inner e := by
  cases hole with
  | letBody => rfl
  | _ => exact operand_of_not_wildcard h

theorem locate_ensureVariables_error {scalars : List String} {p : Predicate} {cause : Cause}
    (h : ensureVariables scalars p = .error cause) :
    locate e scope (ensureVariables scalars p) names = .error (.located e scope cause) := by
  rw [h]
  rfl

/-- What comes of a node is an earlier fault that is the same for all children, or its child is
compiled, in a scope with the names that the node binds, and the failure of the child is that of the
node.  The operands of a join are left out where they are wildcards. -/
def Opens (options : Options) (scope : Scope) (names : FreshNames) (hole : Hole) : Prop :=
  (∃ failure, ∀ e, (hole.IsJoin → e.isWildcard = false) →
    compile options scope (hole.fill e) names = .error failure) ∨
  ∃ inner mid, inner.WellScoped ∧
    (scope.lookup wildcard = none → wildcard ∉ hole.binds → inner.lookup wildcard = none) ∧
    ∀ e failure, (hole.IsJoin → e.isWildcard = false) →
      compileChild options inner hole e mid = .error failure →
        compile options scope (hole.fill e) names = .error failure

section Opens

variable (hscope : scope.WellScoped)

include hscope

theorem opens_operand (op : UnaryOp) : Opens options scope names (.operand op span) := by
  by_cases hop : op = .reflexiveClosure
  · subst hop
    exact .inl ⟨⟨span, "unary", scope.snapshot, noReflexiveClosure⟩, fun e _ => rfl⟩
  · refine .inr ⟨scope, names, hscope, fun h _ => h, fun e failure _ hfailed => ?_⟩
    rw [Hole.fill, compile_unary hop]
    exact bind_of_error hfailed

theorem opens_left (op : BinaryOp) (right : Expr) :
    Opens options scope names (.left op right span) := by
  refine .inr ⟨scope, names, hscope, fun h _ => h, fun e failure hjoin hfailed => ?_⟩
  by_cases hright : op = .join ∧ right.isWildcard = true
  · obtain ⟨rfl, hright⟩ := hright
    rw [Hole.fill, compile_dropLast (hjoin rfl) hright]
    exact bind_of_error hfailed
  · have hboth : op = .join → e.isWildcard = false ∧ right.isWildcard = false :=
      fun hop => ⟨hjoin hop, by simpa [hop] using hright⟩
    rw [Hole.fill, compile_binary hboth]
    exact bind_of_error hfailed

theorem opens_right (op : BinaryOp) (left : Expr) :
    Opens options scope names (.right op left span) := by
  by_cases hleft : op = .join ∧ left.isWildcard = true
  · obtain ⟨rfl, hleft⟩ := hleft
    refine .inr ⟨scope, names, hscope, fun h _ => h, fun e failure hjoin hfailed => ?_⟩
    rw [Hole.fill, compile_dropFirst hleft (hjoin rfl)]
    exact bind_of_error hfailed
  · have hboth : ∀ e : Expr, (op = .join → e.isWildcard = false) → op = .join →
        left.isWildcard = false ∧ e.isWildcard = false :=
      fun e hjoin hop => ⟨by simpa [hop] using hleft, hjoin hop⟩
    cases hrun : operand left scope (compile options scope left) names with
    | error failure =>
        refine .inl ⟨failure, fun e hjoin => ?_⟩
        rw [Hole.fill, compile_binary (hboth e hjoin)]
        exact bind_of_error hrun
    | ok result =>
        obtain ⟨a, mid⟩ := result
        refine .inr ⟨scope, mid, hscope, fun h _ => h, fun e failure hjoin hfailed => ?_⟩
        rw [Hole.fill, compile_binary (hboth e hjoin), bind_of_ok hrun]
        exact bind_of_error hfailed

theorem opens_constraint (style : Style) (scalars : List String) (body : Expr) :
    Opens options scope names (.constraint style scalars body span) := by
  cases hfree : firstRebound? scope [] scalars with
  | some name =>
      refine .inl ⟨⟨span, "comprehension", scope.snapshot, .alreadyBound name⟩, fun e _ => ?_⟩
      rw [Hole.fill, compile_rebound hfree]
      rfl
  | none =>
      refine .inr ⟨scope, names, hscope, fun h _ => h, fun e failure _ hfailed => ?_⟩
      rw [Hole.fill, compile_comprehension hfree]
      exact bind_of_error hfailed

theorem opens_body (style : Style) (scalars : List String) (constraint : Expr) :
    Opens options scope names (.body style scalars constraint span) := by
  cases hfree : firstRebound? scope [] scalars with
  | some name =>
      refine .inl ⟨⟨span, "comprehension", scope.snapshot, .alreadyBound name⟩, fun e _ => ?_⟩
      rw [Hole.fill, compile_rebound hfree]
      rfl
  | none =>
      cases hrun : operand constraint scope (compile options scope constraint) names with
      | error failure =>
          refine .inl ⟨failure, fun e _ => ?_⟩
          rw [Hole.fill, compile_comprehension hfree]
          exact bind_of_error hrun
      | ok result =>
          obtain ⟨c, mid⟩ := result
          cases hcheck : ensureVariables scalars c.predicate with
          | error cause =>
              refine .inl ⟨⟨span, "comprehension", scope.snapshot, cause⟩, fun e _ => ?_⟩
              rw [Hole.fill, compile_comprehension hfree, bind_of_ok hrun]
              exact bind_of_error (locate_ensureVariables_error hcheck)
          | ok _ =>
              have harity := ensureVariables_eq_ok.mp hcheck
              obtain ⟨hnodup, -, hunbound⟩ := firstRebound?_eq_none hfree
              obtain ⟨sites, hderives, -⟩ := exists_derives_of_compile (operand_eq_ok.mp hrun).2
              have hinner := wellScoped_comprehensionScope hscope hnodup hunbound harity
                (hderives.wellScoped hscope).1
              refine .inr ⟨_, mid, hinner, fun hwild hbinds => ?_, fun e failure _ hfailed => ?_⟩
              · exact lookup_comprehensionScope_eq_none hscope hnodup hunbound harity hbinds hwild
              · rw [Hole.fill, compile_comprehension hfree, bind_of_ok hrun,
                  bind_of_ok (locate_ensureVariables harity)]
                exact bind_of_error hfailed

theorem opens_value (bound : String) (body : Expr) :
    Opens options scope names (.value bound body span) := by
  by_cases hbound : scope.isBound bound = true
  · refine .inl ⟨⟨span, "let", scope.snapshot, .alreadyBound bound⟩, fun e _ => ?_⟩
    rw [Hole.fill, compile_bound hbound]
    rfl
  · refine .inr ⟨scope, names, hscope, fun h _ => h, fun e failure _ hfailed => ?_⟩
    rw [Hole.fill, compile_letIn (Bool.eq_false_iff.mpr hbound)]
    exact bind_of_error hfailed

theorem opens_letBody (bound : String) (value : Expr) :
    Opens options scope names (.letBody bound value span) := by
  by_cases hbound : scope.isBound bound = true
  · refine .inl ⟨⟨span, "let", scope.snapshot, .alreadyBound bound⟩, fun e _ => ?_⟩
    rw [Hole.fill, compile_bound hbound]
    rfl
  have hfree : scope.isBound bound = false := Bool.eq_false_iff.mpr hbound
  cases hrun : operand value scope (compile options scope value) names with
  | error failure =>
      refine .inl ⟨failure, fun e _ => ?_⟩
      rw [Hole.fill, compile_letIn hfree]
      exact bind_of_error hrun
  | ok result =>
      obtain ⟨a, mid⟩ := result
      obtain ⟨sites, hderives, -⟩ := exists_derives_of_compile (operand_eq_ok.mp hrun).2
      have hinner := hscope.bind_relation (Scope.isBound_eq_false_iff.mp hfree)
        (hderives.wellScoped hscope).1
      refine .inr ⟨_, mid, hinner, fun hwild hbinds => ?_, fun e failure _ hfailed => ?_⟩
      · rw [Scope.lookup_bind, if_neg (by simpa [Hole.binds] using hbinds)]
        exact hwild
      · rw [Hole.fill, compile_letIn hfree, bind_of_ok hrun]
        exact bind_of_error hfailed

theorem opens (hole : Hole) : Opens options scope names hole := by
  cases hole with
  | operand op span => exact opens_operand hscope op
  | left op right span => exact opens_left hscope op right
  | right op left span => exact opens_right hscope op left
  | constraint style scalars body span => exact opens_constraint hscope style scalars body
  | body style scalars constraint span => exact opens_body hscope style scalars constraint
  | value bound body span => exact opens_value hscope bound body
  | letBody bound value span => exact opens_letBody hscope bound value

end Opens

/-! ## Misplaced wildcards -/

/-- Two wildcards beside each other in a join. -/
theorem compile_wildcards (hjoin : hole.IsJoin) (hbeside : ¬ hole.IsBesideOperand) :
    ∃ failure, compile options scope (hole.fill (.name wildcard span)) names = .error failure ∧
      failure.cause = .misplacedWildcard := by
  have hwild : (Expr.name wildcard span).isWildcard = true := rfl
  cases hole with
  | left op right span' =>
      obtain rfl : op = .join := hjoin
      have hright : right.isWildcard = true := by simpa [Hole.IsBesideOperand] using hbeside
      rw [Hole.fill, compile_wildcardJoin hwild hright]
      exact ⟨_, rfl, rfl⟩
  | right op left span' =>
      obtain rfl : op = .join := hjoin
      have hleft : left.isWildcard = true := by simpa [Hole.IsBesideOperand] using hbeside
      rw [Hole.fill, compile_wildcardJoin hleft hwild]
      exact ⟨_, rfl, rfl⟩
  | _ => exact hjoin.elim

theorem compileChild_wildcard (hlet : ¬ hole.IsLetBody) :
    compileChild options inner hole (.name wildcard span) mid =
      .error (.located (.name wildcard span) inner .misplacedWildcard) := by
  cases hole with
  | letBody => exact (hlet trivial).elim
  | _ => rfl

/-- A wildcard that is not placed beside another operand of a join and not captured is a fault,
unless there is an earlier one. -/
theorem compile_misplaced (hscope : scope.WellScoped) (hplaced : ¬ path.Placed)
    (hfree : (∀ hole ∈ path.getLast?, hole.IsLetBody) →
      scope.lookup wildcard = none ∧ wildcard ∉ path.binds) :
    ∃ failure, compile options scope (path.fill (.name wildcard span)) names = .error failure ∧
      (failure.cause = .misplacedWildcard ∨
        ∀ other, compile options scope (path.fill other) names = .error failure) := by
  induction path generalizing scope names with
  | nil =>
      obtain ⟨hlookup, -⟩ := hfree (by simp)
      refine ⟨.located (.name wildcard span) scope .misplacedWildcard, ?_, .inl rfl⟩
      change compile options scope (.name wildcard span) names = _
      simp only [compile, hlookup]
      rfl
  | cons hole rest ih =>
      simp only [Path.fill_cons]
      by_cases hjoin : rest = [] ∧ hole.IsJoin
      · obtain ⟨rfl, hjoin⟩ := hjoin
        obtain ⟨failure, hfailed, hcause⟩ := compile_wildcards hjoin
          fun hbeside => hplaced ⟨hole, rfl, hbeside⟩
        exact ⟨failure, hfailed, .inl hcause⟩
      have hvisit : ∀ e, hole.IsJoin → (Path.fill rest e).isWildcard = false := fun e h =>
        Path.isWildcard_fill_eq_false (fun hnil => hjoin ⟨hnil, h⟩) e
      rcases opens hscope hole with ⟨failure, hearlier⟩ | ⟨inner, mid, hinner, hlookup, hpass⟩
      · exact ⟨failure, hearlier _ (hvisit _), .inr fun other => hearlier _ (hvisit other)⟩
      by_cases hoperand : rest = [] ∧ ¬ hole.IsLetBody
      · obtain ⟨rfl, hlet⟩ := hoperand
        exact ⟨_, hpass _ _ (hvisit _) (compileChild_wildcard hlet), .inl rfl⟩
      -- The child is compiled without a check that it is a wildcard.
      have hlet : rest = [] → hole.IsLetBody := fun hnil =>
        by_contra fun hlet => hoperand ⟨hnil, hlet⟩
      have hchild : ∀ e, compileChild options inner hole (Path.fill rest e) =
          compile options inner (Path.fill rest e) := by
        intro e
        by_cases hrest : rest = []
        · exact compileChild_of_letBody (hlet hrest)
        · exact compileChild_of_not_wildcard (Path.isWildcard_fill_eq_false hrest e)
      have hplaced' : ¬ Path.Placed rest := by
        rintro ⟨last, hlast, hbeside⟩
        exact hplaced ⟨last, List.mem_getLast?_cons hlast, hbeside⟩
      have hfree' : (∀ last ∈ rest.getLast?, last.IsLetBody) →
          inner.lookup wildcard = none ∧ wildcard ∉ Path.binds rest := by
        intro hlast
        obtain ⟨hwild, hbinds⟩ := hfree fun last hmem => by
          rw [List.getLast?_cons] at hmem
          cases hrest : rest.getLast? with
          | none =>
              obtain rfl : hole = last := by simpa [hrest] using hmem
              exact hlet (List.getLast?_eq_none_iff.mp hrest)
          | some found =>
              obtain rfl : found = last := by simpa [hrest] using hmem
              exact hlast found hrest
        simp only [Path.binds, List.flatMap_cons, List.mem_append, not_or] at hbinds
        exact ⟨hlookup hwild hbinds.1, hbinds.2⟩
      obtain ⟨failure, hfailed, hcause⟩ := @ih inner mid hinner hplaced' hfree'
      refine ⟨failure, hpass _ _ (hvisit _) (by rw [hchild]; exact hfailed), ?_⟩
      refine hcause.imp_right fun hall other => hpass _ _ (hvisit other) ?_
      rw [hchild]
      exact hall other

end Compile

/-- The wildcards of a query are found by paths.  When the query compiles, a wildcard is an operand of
a join whose other operand is not one, unless it is the body of a let under a binder of the name
`_`.  A wildcard in any other place makes the query fail, because of this wildcard or, whatever
stands in its place, because of an earlier fault. -/
theorem wildcard_placed_iff_not_captured {inputs : List (String × List ColumnType)} {scope : Scope}
    (hinputs : Scope.ofInputs inputs = .ok scope) (hnames : wildcard ∉ inputs.map Prod.fst)
    (options : Compile.Options) (e : Expr) :
    (∀ span, .name wildcard span ∈ e.nodes ↔ ∃ path : Path, e = path.fill (.name wildcard span)) ∧
    (∀ c, e.compile scope options = .ok c → ∀ (path : Path) (span : Span),
      e = path.fill (.name wildcard span) → (path.Placed ↔ ¬ path.Captured)) ∧
    ∀ (path : Path) (span : Span), e = path.fill (.name wildcard span) →
      ¬ path.Placed → ¬ path.Captured →
      ∃ failure, e.compile scope options = .error failure ∧
        (failure.cause = .misplacedWildcard ∨
          ∀ other, (path.fill other).compile scope options = .error failure) := by
  have hlookup : scope.lookup wildcard = none := by
    rw [Option.eq_none_iff_forall_ne_some]
    intro binding hbinding
    obtain ⟨types, hmem, -⟩ := (Scope.lookup_ofInputs hinputs).mp hbinding
    exact hnames (List.mem_map_of_mem hmem)
  have hmisplaced : ∀ (path : Path) (span : Span), e = path.fill (.name wildcard span) →
      ¬ path.Placed → ¬ path.Captured →
      ∃ failure, e.compile scope options = .error failure ∧
        (failure.cause = .misplacedWildcard ∨
          ∀ other, (path.fill other).compile scope options = .error failure) := by
    rintro path span rfl hplaced hcaptured
    simp only [Expr.compile_eq_error]
    refine Compile.compile_misplaced (Scope.wellScoped_ofInputs hinputs) hplaced fun hlast => ?_
    refine ⟨hlookup, fun hbinds => ?_⟩
    cases hpath : path.getLast? with
    | none => simp [List.getLast?_eq_none_iff.mp hpath, Path.binds] at hbinds
    | some hole => exact hcaptured ⟨⟨hole, hpath, hlast hole hpath⟩, hbinds⟩
  refine ⟨fun span => Expr.mem_nodes_iff_exists_path, ?_, hmisplaced⟩
  intro c hc path span he
  refine ⟨Path.Placed.not_captured, fun hcaptured => by_contra fun hplaced => ?_⟩
  obtain ⟨failure, hfailed, -⟩ := hmisplaced path span he hplaced hcaptured
  rw [hc] at hfailed
  cases hfailed

namespace Sample

/-- The way to an operand under a binder and a quantifier. -/
def deepPath (op : BinaryOp) : Path :=
  [.body .keep ["x"] (.name "person" .synthetic) .synthetic,
    .operand (.quantify .some) .synthetic,
    .right op (.binary .join (.name "x" .synthetic) (.name "R2" .synthetic) .synthetic) .synthetic]

end Sample

theorem sample_wildcard_placed :
    (∃ c, ((Sample.deepPath .join).fill (.name wildcard .synthetic)).compile Sample.scope ⟨true⟩ =
      .ok c ∧ ((Sample.deepPath .join).Placed ↔ ¬ (Sample.deepPath .join).Captured)) ∧
    ∃ failure, ((Sample.deepPath .product).fill (.name wildcard .synthetic)).compile Sample.scope
      ⟨true⟩ = .error failure ∧ (failure.cause = .misplacedWildcard ∨
        ∀ other, ((Sample.deepPath .product).fill other).compile Sample.scope ⟨true⟩ =
          .error failure) := by
  have hinputs : Scope.ofInputs Sample.inputs = .ok Sample.scope := by rfl
  have hnames : wildcard ∉ Sample.inputs.map Prod.fst := by decide
  constructor
  · obtain ⟨c, hc⟩ : ∃ c, ((Sample.deepPath .join).fill (.name wildcard .synthetic)).compile
        Sample.scope ⟨true⟩ = .ok c := ⟨_, rfl⟩
    exact ⟨c, hc, (wildcard_placed_iff_not_captured hinputs hnames _ _).2.1 c hc _ .synthetic rfl⟩
  · refine (wildcard_placed_iff_not_captured hinputs hnames _ _).2.2 _ _ rfl ?_ ?_
    · simp [Path.Placed, Sample.deepPath, Hole.IsBesideOperand]
    · simp [Path.Captured, Sample.deepPath, Hole.IsLetBody]

/-- The body of a let may be a wildcard when the let binds the name `_`. -/
theorem captured_wildcard_compiles :
    ∃ c, (Expr.letIn wildcard (.name "person" .synthetic) (.name wildcard .synthetic)
      .synthetic).compile Sample.scope ⟨true⟩ = .ok c ∧
      ¬ Path.Placed [.letBody wildcard (.name "person" .synthetic) .synthetic] := by
  exact ⟨_, rfl, by simp [Path.Placed, Hole.IsBesideOperand]⟩

end RelQuery
