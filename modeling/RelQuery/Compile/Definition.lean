import RelQuery.Expr.Printer
import RelQuery.Schema.FreshNames

/-!
# Definitions of predicates

Compiling a node of an expression defines predicates: a declaration and rules for each.  The last
one defined is the value of the node.
-/

namespace RelQuery.Compile

open Datalog (Term Literal Rule Command)

/-- What a program may hold beside declarations and rules. -/
structure Options where
  /-- Whether a blank line and a comment with the source text precede every declaration. -/
  comments : Bool
  deriving DecidableEq, Repr

structure Definition where
  predicate : Predicate
  /-- What the predicate is, for its comment. -/
  label : String
  choiceDomains : List (List String)
  rules : List Rule

/-- The predicates that a node defines. -/
structure Emission where
  auxiliary : List Definition
  result : Definition

/-- A node that defines one predicate, without choice domains. -/
def Emission.single (predicate : Predicate) (label : String) (rules : List Rule) : Emission :=
  ⟨[], ⟨predicate, label, [], rules⟩⟩

/-- Computations that use fresh names and may fail. -/
abbrev Emit : Type → Type :=
  StateT FreshNames (Except Cause)

def freshRelation : Emit String := fun names =>
  .ok names.relation

def freshVar (stem : String) : Emit String := fun names =>
  .ok (names.var stem)

def freshVars (columns : List Column) : Emit (List String) := fun names =>
  .ok (names.vars (columns.map (·.stem)))

def ensure (condition : Bool) (cause : Cause) : Except Cause Unit :=
  if condition then .ok () else .error cause

def ensureColumn (subject : String) (p : Predicate) : Except Cause Unit :=
  ensure (p.arity != 0) (.arityMismatch subject .positive 0)

def ensureArity (subject : String) (columns : Nat) (p : Predicate) : Except Cause Unit :=
  ensure (p.arity == columns) (.arityMismatch subject (.exactly columns) p.arity)

def ensureType (subject : String) (expected found : ColumnType) : Except Cause Unit :=
  ensure (found == expected) (.typeMismatch subject expected found)

/-- The source text of an expression, or its rendering when it has none. -/
def sourceText (e : Expr) : String :=
  if e.text.isEmpty then e.render else e.text

def Definition.comment (e : Expr) (d : Definition) : Command :=
  .comment (d.predicate.name ++ ": " ++ sourceText e ++ " (" ++ d.label ++ ")")

def Definition.commands (options : Options) (e : Expr) (scope : Scope) (d : Definition) :
    Except Cause (List Command) := do
  let decl ← scope.declare d.predicate d.choiceDomains
  let header := if options.comments then [.blank, d.comment e] else []
  return header ++ .decl decl :: d.rules.map .rule

def Emission.commands (options : Options) (e : Expr) (scope : Scope) (emission : Emission) :
    Except Cause (List Command) := do
  let blocks ← (emission.auxiliary ++ [emission.result]).mapM (·.commands options e scope)
  return blocks.flatten

end RelQuery.Compile
