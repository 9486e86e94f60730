import RelQuery.Proofs.Compile.Emission
import RelQuery.Proofs.Typing.Judgement

/-!
# Column types and the first fault

`infer` reads an expression in a context and gives its column types, or the first fault with the
node and the context where it is found.  It sees kinds of names only: no predicates, no parameters
and no generated names.  So whatever is shown to agree with it depends on nothing else.
-/

namespace RelQuery

open Compile (ensure ensureType)

/-! ## What operators ask for -/

/-- Fails unless there is a column. -/
def checkColumn (subject : String) (types : List ColumnType) : Except Cause Unit :=
  ensure (types.length != 0) (.arityMismatch subject .positive 0)

/-- Fails unless there is a last column of the expected type. -/
def checkLast (subject column : String) (expected : ColumnType) (types : List ColumnType) :
    Except Cause Unit :=
  match types.getLast? with
  | none => .error (.arityMismatch subject .positive 0)
  | some last => ensureType column expected last

/-- Fails unless there is one column on either side and the two pass a test. -/
def checkScalars (test : ColumnType → ColumnType → Except Cause Unit)
    (left right : List ColumnType) : Except Cause Unit :=
  match left, right with
  | [first], [second] => test first second
  | [_], _ =>
    .error (.arityMismatch "Right-hand side of scalar operator" (.exactly 1) right.length)
  | _, _ => .error (.arityMismatch "Left-hand side of scalar operator" (.exactly 1) left.length)

/-- What an operator asks of the columns of its operand. -/
def UnaryOp.check (op : UnaryOp) (types : List ColumnType) : Except Cause Unit :=
  match op with
  | .quantify _ | .count => .ok ()
  | .closure =>
    match types with
    | [source, target] => ensureType "Second column of transitive closure" source target
    | _ => .error (.arityMismatch "Transitive closure" (.exactly 2) types.length)
  | .reflexiveClosure => .error Compile.noReflexiveClosure
  | .transpose =>
    ensure (types.length == 2) (.arityMismatch "Transpose" (.exactly 2) types.length)
  | .aggregate function =>
    checkLast ("Operand of " ++ function.symbol)
      ("Last column of " ++ function.symbol ++ " operand") .number types
  | .wildcardApply => checkColumn "Operand of wildcard application" types
  | .index => checkColumn "Operand of index" types
  | .concat => checkLast "Operand of concat" "Last column of concat operand" .symbol types

/-- What an operator asks of the columns of its operands. -/
def BinaryOp.check (op : BinaryOp) (left right : List ColumnType) : Except Cause Unit :=
  match op with
  | .join =>
    match left.getLast?, right.head? with
    | none, _ => .error (.arityMismatch "Left-hand side of dot-join" .positive 0)
    | some _, none => .error (.arityMismatch "Right-hand side of dot-join" .positive 0)
    | some last, some first =>
      ensureType "First column of right-hand side of dot-join" last first
  | .compare comparison =>
    checkScalars (fun first second => do
      ensureType "Right-hand side of comparison" first second
      ensure (!comparison.isOrdering || first == .number)
        (.typeMismatch "Operands of ordering comparison" .number first)) left right
  | .set operation =>
    ensure (left == right) (.signatureMismatch operation.describe "matching" left right)
  | .product => .ok ()
  | .apply =>
    ensure (right.isPrefixOf left)
      (.signatureMismatch "application" "prefix-compatible" left right)
  | .domainRestrict =>
    ensure (left.isPrefixOf right)
      (.signatureMismatch "prefix join" "prefix-compatible" left right)
  | .rangeRestrict =>
    ensure (right.isSuffixOf left)
      (.signatureMismatch "suffix join" "suffix-compatible" left right)
  | .arith _ =>
    checkScalars (fun first second => do
      ensureType "Left-hand side of arithmetic" .number first
      ensureType "Right-hand side of arithmetic" .number second) left right

/-- Fails unless there is one variable for each column of a constraint. -/
def checkVariables (scalars : List String) (types : List ColumnType) : Except Cause Unit :=
  ensure (types.length == scalars.length)
    (.arityMismatch "Constraint of comprehension" (.exactly scalars.length) types.length)

/-! ## The inference -/

def Context.located (context : Context) (e : Expr) (cause : Cause) : CompileError :=
  ⟨e.span, e.kind, ⟨context.reverse⟩, cause⟩

/-- Places the fault of a check at an expression. -/
def Context.ensure (context : Context) (e : Expr) (check : Except Cause Unit) :
    Except CompileError Unit :=
  check.mapError (context.located e)

/-- The types of an operand, which must not be a bare wildcard. -/
def Context.operand (context : Context) (e : Expr)
    (types : Except CompileError (List ColumnType)) : Except CompileError (List ColumnType) :=
  if e.isWildcard then .error (context.located e .misplacedWildcard) else types

/-- The first of some names that is bound or repeats an earlier one. -/
def Context.firstRebound? (context : Context) : List String → List String → Option String
  | _, [] => none
  | seen, name :: rest =>
    if (context.lookup name).isSome || seen.contains name then some name
    else context.firstRebound? (name :: seen) rest

/-- The column types of an expression, or its first fault. -/
def infer (context : Context) : Expr → Except CompileError (List ColumnType)
  | e@(.name name _) =>
    match context.lookup name with
    | some (.relation types) => .ok types
    | some (.scalar type) => .ok [type]
    | none => .error (context.located e
        (if name == wildcard then .misplacedWildcard else .unknownIdentifier name))
  | .constant value _ => .ok [value.type]
  | .formula .. => .ok [.number]
  | e@(.unary op inner _) =>
    match op with
    | .reflexiveClosure => .error (context.located e Compile.noReflexiveClosure)
    | _ => do
      let types ← context.operand inner (infer context inner)
      context.ensure e (op.check types)
      return op.resultTypes types
  | e@(.binary op left right _) =>
    match op, left.isWildcard, right.isWildcard with
    | .join, true, true => .error (context.located e .misplacedWildcard)
    | .join, true, false => do
      let types ← context.operand right (infer context right)
      context.ensure e (checkColumn "Operand of wildcard application" types)
      return types.tail
    | .join, false, true => do
      let types ← context.operand left (infer context left)
      context.ensure e (checkColumn "Left-hand side of dot-join" types)
      return types.dropLast
    | _, _, _ => do
      let types ← context.operand left (infer context left)
      let types' ← context.operand right (infer context right)
      context.ensure e (op.check types types')
      return op.resultTypes types types'
  | e@(.letIn name value body _) => do
    if (context.lookup name).isSome then .error (context.located e (.alreadyBound name))
    else
      let types ← context.operand value (infer context value)
      infer ((name, .relation types) :: context) body
  | e@(.comprehension style names constraint body _) =>
    match context.firstRebound? [] names with
    | some name => .error (context.located e (.alreadyBound name))
    | none => do
      let types ← context.operand constraint (infer context constraint)
      context.ensure e (checkVariables names types)
      let inner := context.bindScalars names types
      let result ← inner.operand body (infer inner body)
      return style.types types result

variable {context : Context}

theorem infer_unary {op : UnaryOp} (hop : op ≠ .reflexiveClosure) (inner : Expr) (span : Span) :
    infer context (.unary op inner span) = (do
      let types ← context.operand inner (infer context inner)
      context.ensure (.unary op inner span) (op.check types)
      return op.resultTypes types) := by
  cases op with
  | reflexiveClosure => exact (hop rfl).elim
  | _ => rfl

theorem infer_dropFirst {left right : Expr} (hleft : left.isWildcard = true)
    (hright : right.isWildcard = false) (span : Span) :
    infer context (.binary .join left right span) = (do
      let types ← context.operand right (infer context right)
      context.ensure (.binary .join left right span)
        (checkColumn "Operand of wildcard application" types)
      return types.tail) := by
  simp only [infer, hleft, hright]

theorem infer_dropLast {left right : Expr} (hleft : left.isWildcard = false)
    (hright : right.isWildcard = true) (span : Span) :
    infer context (.binary .join left right span) = (do
      let types ← context.operand left (infer context left)
      context.ensure (.binary .join left right span)
        (checkColumn "Left-hand side of dot-join" types)
      return types.dropLast) := by
  simp only [infer, hleft, hright]

theorem infer_binary {op : BinaryOp} {left right : Expr}
    (hop : op = .join → left.isWildcard = false ∧ right.isWildcard = false) (span : Span) :
    infer context (.binary op left right span) = (do
      let types ← context.operand left (infer context left)
      let types' ← context.operand right (infer context right)
      context.ensure (.binary op left right span) (op.check types types')
      return op.resultTypes types types') := by
  cases op with
  | join =>
      obtain ⟨hleft, hright⟩ := hop rfl
      simp only [infer, hleft, hright]
  | _ => rfl

/-! ## Faults of a query -/

/-- The causes that no query should lead to: a predicate depends on what is no scalar of the scope.
There are no others of this kind to rule out.  An operator cannot reach the branch of another family,
such as a product that is handled as a set operator, a comparison, an arithmetic operator or a numeric
aggregate, because each family has a type of its own.  The names in a formula are found by a fixed
scan and not by a pattern that would have to be compiled first. -/
def Cause.isInternal : Cause → Bool
  | .ungrounded _ | .unscoped .. => true
  | _ => false

/-- A computation that never fails with an error of a given kind. -/
def Avoids {ε α : Type} (bad : ε → Bool) (m : Except ε α) : Prop :=
  ∀ err, m = .error err → bad err = false

section Avoids

variable {ε δ α β : Type} {bad : ε → Bool} {m : Except ε α}

theorem avoids_ok (x : α) : Avoids bad (.ok x : Except ε α) := by
  intro err h
  cases h

theorem avoids_error {err : ε} (herr : bad err = false) : Avoids bad (.error err : Except ε α) := by
  intro found h
  cases h
  exact herr

theorem Avoids.bind (h : Avoids bad m) {next : α → Except ε β} (hnext : ∀ x, Avoids bad (next x)) :
    Avoids bad (m >>= next) := by
  intro err hfailed
  rcases except_bind_eq_error.mp hfailed with hfailed | ⟨x, -, hfailed⟩
  · exact h err hfailed
  · exact hnext x err hfailed

theorem Avoids.mapError {worse : δ → Bool} {f : ε → δ} (h : Avoids bad m)
    (hf : ∀ err, bad err = false → worse (f err) = false) : Avoids worse (m.mapError f) := by
  intro found hfailed
  cases m with
  | ok x => cases hfailed
  | error err =>
      cases hfailed
      exact hf err (h err rfl)

end Avoids

theorem avoids_ensure {condition : Bool} {fault : Cause} (hfault : fault.isInternal = false) :
    Avoids Cause.isInternal (ensure condition fault) := by
  intro cause hfailed
  obtain ⟨-, rfl⟩ := Compile.ensure_eq_error.mp hfailed
  exact hfault

theorem avoids_checkLast (subject column : String) (expected : ColumnType)
    (types : List ColumnType) :
    Avoids Cause.isInternal (checkLast subject column expected types) := by
  unfold checkLast
  split
  · exact avoids_error rfl
  · exact avoids_ensure rfl

theorem avoids_checkScalars {test : ColumnType → ColumnType → Except Cause Unit}
    (htest : ∀ first second, Avoids Cause.isInternal (test first second))
    (left right : List ColumnType) : Avoids Cause.isInternal (checkScalars test left right) := by
  unfold checkScalars
  split
  · exact htest _ _
  · exact avoids_error rfl
  · exact avoids_error rfl

theorem UnaryOp.avoids_check (op : UnaryOp) (types : List ColumnType) :
    Avoids Cause.isInternal (op.check types) := by
  cases op with
  | quantify quantifier => exact avoids_ok ()
  | count => exact avoids_ok ()
  | closure =>
      simp only [UnaryOp.check]
      split
      · exact avoids_ensure rfl
      · exact avoids_error rfl
  | reflexiveClosure => exact avoids_error rfl
  | transpose => exact avoids_ensure rfl
  | aggregate function => exact avoids_checkLast _ _ _ types
  | wildcardApply => exact avoids_ensure rfl
  | index => exact avoids_ensure rfl
  | concat => exact avoids_checkLast _ _ _ types

theorem BinaryOp.avoids_check (op : BinaryOp) (left right : List ColumnType) :
    Avoids Cause.isInternal (op.check left right) := by
  cases op with
  | join =>
      simp only [BinaryOp.check]
      split
      · exact avoids_error rfl
      · exact avoids_error rfl
      · exact avoids_ensure rfl
  | compare comparison =>
      refine avoids_checkScalars (fun first second => ?_) left right
      exact (avoids_ensure rfl).bind fun _ => avoids_ensure rfl
  | set operation => exact avoids_ensure rfl
  | product => exact avoids_ok ()
  | apply => exact avoids_ensure rfl
  | domainRestrict => exact avoids_ensure rfl
  | rangeRestrict => exact avoids_ensure rfl
  | arith operation =>
      refine avoids_checkScalars (fun first second => ?_) left right
      exact (avoids_ensure rfl).bind fun _ => avoids_ensure rfl

/-- The inference never blames the scope. -/
theorem avoids_infer (context : Context) (e : Expr) :
    Avoids (fun failure => failure.cause.isInternal) (infer context e) := by
  have hensure : ∀ (context : Context) (e : Expr) {check : Except Cause Unit},
      Avoids Cause.isInternal check →
      Avoids (fun failure => failure.cause.isInternal) (context.ensure e check) :=
    fun context e check hcheck => hcheck.mapError fun cause hcause => hcause
  have hoperand : ∀ {context : Context} {e : Expr},
      Avoids (fun failure => failure.cause.isInternal) (infer context e) →
      Avoids (fun failure => failure.cause.isInternal) (context.operand e (infer context e)) := by
    intro context e h
    unfold Context.operand
    split
    · exact avoids_error rfl
    · exact h
  induction e generalizing context with
  | constant value span => exact avoids_ok _
  | name name span =>
      simp only [infer]
      split
      · exact avoids_ok _
      · exact avoids_ok _
      · refine avoids_error ?_
        rw [Context.located]
        split <;> rfl
  | formula text span => exact avoids_ok _
  | unary op inner span ih =>
      by_cases hop : op = .reflexiveClosure
      · subst hop
        exact avoids_error rfl
      · rw [infer_unary hop]
        exact (hoperand (ih context)).bind fun types =>
          (hensure _ _ (op.avoids_check types)).bind fun _ => avoids_ok _
  | binary op left right span ihleft ihright =>
      simp only [infer]
      split
      · exact avoids_error rfl
      · exact (hoperand (ihright context)).bind fun types =>
          (hensure _ _ (avoids_ensure rfl)).bind fun _ => avoids_ok _
      · exact (hoperand (ihleft context)).bind fun types =>
          (hensure _ _ (avoids_ensure rfl)).bind fun _ => avoids_ok _
      · exact (hoperand (ihleft context)).bind fun types =>
          (hoperand (ihright context)).bind fun types' =>
            (hensure _ _ (BinaryOp.avoids_check _ types types')).bind fun _ => avoids_ok _
  | comprehension style scalars constraint body span ihconstraint ihbody =>
      simp only [infer]
      split
      · exact avoids_error rfl
      · exact (hoperand (ihconstraint context)).bind fun types =>
          (hensure _ _ (avoids_ensure rfl)).bind fun _ =>
            (hoperand (ihbody _)).bind fun _ => avoids_ok _
  | letIn name value body span ihvalue ihbody =>
      simp only [infer]
      split
      · exact avoids_error rfl
      · exact (hoperand (ihvalue context)).bind fun types => ihbody _

end RelQuery
