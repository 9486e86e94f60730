import RelQuery.Compile.Basic
import RelQuery.Datalog.Printer
import RelQuery.Engine.Basic
import RelQuery.Expr.Parse
import RelQuery.Text.Basic

/-!
# Queries

A query is read, compiled in the scope of its inputs and assembled into a program.  An engine runs
the program, and the result relation is taken from its outputs, given the types of the query and put
in normal form.
-/

namespace RelQuery

inductive QueryError where
  | parse (error : SyntaxError)
  | compile (error : CompileError)
  | scope (cause : Cause)
  | relation (error : RelationError)
  | engine (error : EngineError)
  | missingOutput (relation : String)
  | invalidInputName (name : String)
  deriving DecidableEq, Repr

namespace QueryError

def message : QueryError → String
  | parse error => error.message
  | compile error => error.message
  | scope cause => cause.message
  | relation error => error.message
  | engine error => error.message
  | missingOutput name => "Engine produced no output for result relation " ++ name
  | invalidInputName name => "Invalid input relation name: " ++ name

def causes : QueryError → List String
  | compile error => [error.cause.message]
  | engine error => error.causes
  | _ => []

end QueryError

/-- A compiled query: the text of its program and the predicate of its value. -/
structure PreparedQuery where
  program : String
  result : Predicate
  deriving DecidableEq, Repr

namespace PreparedQuery

def resultTypes (query : PreparedQuery) : List ColumnType :=
  query.result.types

def outputs (query : PreparedQuery) : Signatures :=
  .single query.result.name query.resultTypes

def finish (query : PreparedQuery) (outputs : Relations) : Except QueryError Relation :=
  match outputs.get? query.result.name with
  | none => .error (.missingOutput query.result.name)
  | some raw => ((raw.coerce query.resultTypes).map Relation.normalize).mapError .relation

end PreparedQuery

def isInputName (name : String) : Bool :=
  Text.isIdentifier name.toList && name != wildcard

namespace Query

/-- Fails at the first name that no input may have. -/
def checkNames (names : List String) : Except QueryError Unit :=
  match names.find? fun name => !isInputName name with
  | some name => .error (.invalidInputName name)
  | none => .ok ()

def prepare (source : String) (inputs : Relations) (options : Compile.Options) :
    Except QueryError PreparedQuery := do
  checkNames inputs.names
  let e ← (Expr.parse source).mapError .parse
  let signatures := inputs.entries.map fun entry => (entry.1, entry.2.types)
  let scope ← (Scope.ofInputs signatures).mapError .scope
  let compiled ← (e.compile scope options).mapError .compile
  let program ← (compiled.assemble scope).mapError .scope
  return ⟨program.render, compiled.predicate⟩

def run (source : String) (inputs : Relations) (engine : Engine) :
    Except QueryError Relation := do
  let query ← prepare source inputs ⟨true⟩
  let outputs ← (engine.run query.program inputs query.outputs).mapError .engine
  query.finish outputs

end Query

end RelQuery
