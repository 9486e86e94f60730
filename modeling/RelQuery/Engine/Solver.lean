import RelQuery.Engine.Facts

/-!
# Solvers

A solver is an outside program.  Every run has a directory of its own.  The facts of the inputs and
the program are put there, the solver is started on them, and the outputs that it left there are
read back.  A solver is given by what its program does when it is started.
-/

namespace RelQuery

/-- What a solver is started with: its arguments and the files in its directory. -/
structure Job where
  arguments : List String
  files : Directory String
  deriving DecidableEq, Repr

/-- How a run of a solver ends, and the files that are then in its directory. -/
structure Completion where
  succeeded : Bool
  complaint : String
  files : Directory ByteArray

inductive StartFault where
  | missing
  | refused (fault : FileFault)
  deriving DecidableEq, Repr

/-- An outside program with its path and the arguments that it is always given. -/
structure Solver where
  path : String
  extraArguments : List String
  start : Job → Except StartFault Completion

/-- The arguments of a solver unless others are set. -/
def defaultArguments : List String :=
  ["--no-preprocessor"]

namespace Solver

def programFile : String := "program.dl"

/-- Puts the facts of an input into a directory. -/
def addFacts (files : Directory String) (input : String × Relation) :
    Except EngineError (Directory String) := do
  let text ← input.2.facts.mapError (EngineError.invalidFact input.1)
  (files.write (input.1 ++ ".facts") text).mapError EngineError.file

def job (solver : Solver) (directory program : String) (inputs : Relations) :
    Except EngineError Job := do
  let facts ← inputs.entries.foldlM addFacts .empty
  let files ← (facts.write programFile program).mapError EngineError.file
  return {
    arguments := ["-F", directory, "-D", directory] ++ solver.extraArguments
      ++ [directory ++ "/" ++ programFile]
    files := files }

/-- The output of a given name and types; nothing when the solver left none. -/
def readOutput (files : Directory ByteArray) (name : String) (types : List ColumnType) :
    Except EngineError (Option Relation) :=
  match files.read (name ++ ".csv") with
  | .error .notFound => .ok none
  | .error fault => .error (.file fault)
  | .ok bytes =>
    match String.fromUTF8? bytes with
    | none => .error (.file .notText)
    | some text =>
      ((Relation.ofOutput types text).map some).mapError (EngineError.malformedOutput name)

def readOutputs (files : Directory ByteArray) (outputs : Signatures) :
    Except EngineError Relations := do
  let found ← outputs.entries.mapM fun entry => do
    let relation ← readOutput files entry.1 entry.2
    return (relation.map fun r => (entry.1, r)).toList
  return .ofList found.flatten

def startError (path : String) : StartFault → EngineError
  | .missing => .missing path
  | .refused fault => .file fault

/-- Starts a solver, unless one of its arguments cannot be handed over. -/
def launch (solver : Solver) (job : Job) : Except StartFault Completion :=
  if job.arguments.any fun argument => argument.toList.contains '\x00' then
    .error (.refused .nulInArgument)
  else solver.start job

def runIn (solver : Solver) (directory program : String) (inputs : Relations)
    (outputs : Signatures) : Except EngineError Relations := do
  let job ← solver.job directory program inputs
  let completion ← (solver.launch job).mapError (startError solver.path)
  if completion.succeeded then readOutputs completion.files outputs
  else throw (.rejected completion.complaint)

/-- Whether a solver can be started and tells its version. -/
def isAvailable (solver : Solver) : Bool :=
  match solver.launch ⟨["--version"], .empty⟩ with
  | .ok completion => completion.succeeded
  | .error _ => false

def toEngine (solver : Solver) (directory : String) : Engine :=
  ⟨solver.runIn directory⟩

end Solver

end RelQuery
