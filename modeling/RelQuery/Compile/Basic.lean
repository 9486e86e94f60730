import RelQuery.Compile.Aggregate
import RelQuery.Compile.Binding
import RelQuery.Compile.Closure
import RelQuery.Compile.Join
import RelQuery.Compile.Rank
import RelQuery.Compile.Scalar
import RelQuery.Compile.SetOperation

/-!
# Compiling expressions to Datalog

An expression is compiled in a scope to a predicate and the commands that define it.  Operands are
compiled first, from left to right, so every predicate is declared before it is used.  A failure is
located at the smallest expression that has no meaning.
-/

namespace RelQuery

open Datalog (Command Program)

/-- A failure with the place where it happened. -/
structure CompileError where
  /-- The source text of the failing expression. -/
  failing : Span
  /-- The kind of the failing expression. -/
  kind : String
  /-- The scope at the failing expression. -/
  scope : Snapshot
  cause : Cause
  deriving DecidableEq, Repr

/-- The failure of an expression in a scope. -/
def CompileError.located (e : Expr) (scope : Scope) (cause : Cause) : CompileError :=
  ⟨e.span, e.kind, scope.snapshot, cause⟩

def CompileError.message (error : CompileError) : String :=
  "Translating " ++ error.kind ++ " " ++ error.failing.text ++ ": " ++ error.cause.message

structure Compiled where
  predicate : Predicate
  program : Program

namespace Compile

abbrev CompileM : Type → Type :=
  StateT FreshNames (Except CompileError)

def locate {α : Type} (e : Expr) (scope : Scope) (emit : Emit α) : CompileM α := fun names =>
  (emit names).mapError (CompileError.located e scope)

/-- Compiles an operand, which must not be a bare wildcard. -/
def operand (e : Expr) (scope : Scope) (compiled : CompileM Compiled) : CompileM Compiled :=
  if e.isWildcard then throw (.located e scope .misplacedWildcard) else compiled

/-- Puts what the node `e` defines after the commands of its operands. -/
def define (options : Options) (e : Expr) (scope : Scope) (before : List Command)
    (emit : Emit Emission) : CompileM Compiled :=
  locate e scope do
    let emission ← emit
    let commands ← emission.commands options e scope
    return ⟨emission.result.predicate, ⟨before ++ commands⟩⟩

/-- Why a reflexive transitive closure has no predicate. -/
def noReflexiveClosure : Cause :=
  .unsupported "Reflexive transitive closure (*)"

def emitUnary (op : UnaryOp) (a : Predicate) (scope : Scope) : Emit Emission :=
  match op with
  | .quantify quantifier => emitQuantifier quantifier a scope
  | .count => emitCount a scope
  | .closure => emitClosure a
  | .reflexiveClosure => throw noReflexiveClosure
  | .transpose => emitTranspose a
  | .aggregate function => emitAggregate function a scope
  | .wildcardApply => emitDropFirst a
  | .index => emitIndex a
  | .concat => emitConcat a

def emitBinary (op : BinaryOp) (a b : Predicate) (scope : Scope) : Emit Emission :=
  match op with
  | .join => emitJoin a b
  | .compare comparison => emitComparison comparison a b
  | .set operation => emitSetOperation operation a b scope
  | .product => emitProduct a b
  | .apply => emitApply a b
  | .domainRestrict => emitDomainRestrict a b
  | .rangeRestrict => emitRangeRestrict a b
  | .arith operation => emitArithmetic operation a b

def compile (options : Options) (scope : Scope) : Expr → CompileM Compiled
  | e@(.name name _) =>
    match scope.lookup name with
    | some (.relation predicate) => return ⟨predicate, ⟨[]⟩⟩
    | some (.scalar binding) => define options e scope [] (emitScalar name binding)
    | none =>
      throw (.located e scope
        (if name == wildcard then .misplacedWildcard else .unknownIdentifier name))
  | e@(.constant value _) => define options e scope [] (emitConstant value)
  | e@(.formula text _) => define options e scope [] (emitFormula text scope)
  | e@(.unary op inner _) =>
    match op with
    | .reflexiveClosure => throw (.located e scope noReflexiveClosure)
    | _ => do
      let a ← operand inner scope (compile options scope inner)
      define options e scope a.program.commands (emitUnary op a.predicate scope)
  | e@(.binary op left right _) =>
    match op, left.isWildcard, right.isWildcard with
    | .join, true, true => throw (.located e scope .misplacedWildcard)
    | .join, true, false => do
      let b ← operand right scope (compile options scope right)
      define options e scope b.program.commands (emitDropFirst b.predicate)
    | .join, false, true => do
      let a ← operand left scope (compile options scope left)
      define options e scope a.program.commands (emitDropLast a.predicate)
    | _, _, _ => do
      let a ← operand left scope (compile options scope left)
      let b ← operand right scope (compile options scope right)
      define options e scope (a.program.commands ++ b.program.commands)
        (emitBinary op a.predicate b.predicate scope)
  | e@(.letIn name value body _) => do
    if scope.isBound name then throw (.located e scope (.alreadyBound name))
    let a ← operand value scope (compile options scope value)
    let b ← compile options (scope.bind name (.relation a.predicate)) body
    return ⟨b.predicate, ⟨a.program.commands ++ b.program.commands⟩⟩
  | e@(.comprehension style names constraint body _) => do
    match firstRebound? scope [] names with
    | some name => throw (.located e scope (.alreadyBound name))
    | none => pure ()
    let c ← operand constraint scope (compile options scope constraint)
    locate e scope (ensureVariables names c.predicate)
    let inner := comprehensionScope scope c.predicate names
    let b ← operand body inner (compile options inner body)
    define options e scope (c.program.commands ++ b.program.commands)
      (emitComprehension style names c.predicate b.predicate)

end Compile

namespace Expr

def compile (e : Expr) (scope : Scope) (options : Compile.Options) :
    Except CompileError Compiled :=
  (Compile.compile options scope e).run' (.inScope scope)

end Expr

namespace Compiled

/-- The program that reads all relations of a scope and writes the compiled predicate. -/
def assemble (compiled : Compiled) (scope : Scope) : Except Cause Program := do
  let inputs ← scope.relations.mapM fun entry => do
    let decl ← scope.declare entry.2 []
    return [Command.decl decl, Command.input entry.2.name]
  return ⟨inputs.flatten ++ .blank :: compiled.program.commands
    ++ [.blank, .output compiled.predicate.name]⟩

end Compiled

end RelQuery
