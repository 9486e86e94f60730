import RelQuery.CommandLine.Help
import RelQuery.Config.Layers
import RelQuery.Engine.Pool
import RelQuery.Expr.Printer
import RelQuery.Json.Printer
import RelQuery.Query.Basic
import RelQuery.Relation.Json

/-!
# Sessions

A session answers one command line.  It loads the configuration, opens the log, reads the inputs and
does what the verb says.  What lies outside the program, the files, the environment and the solver,
is given to a session as functions.
-/

namespace RelQuery.CommandLine

/-- What a session finds outside itself: the texts of files, whether a log can be opened, the
environment, what starting a program does, and a directory for the files of the solver. -/
structure Surroundings where
  read : String → Except FileFault String
  logFault? : String → Option FileFault
  environment : List (String × String)
  start : String → Job → Except StartFault Completion
  scratch : String

inductive InputFault where
  | unreadable (file : String) (fault : FileFault)
  | invalid (error : RelationError)
  deriving DecidableEq, Repr

def InputFault.messages : InputFault → List String
  | unreadable file fault => ["opening " ++ file, fault.message]
  | invalid error => [error.message]

inductive Failure where
  | usage (error : UsageError)
  | configuration (path : SettingPath)
  | malformedInput (pair : String)
  | repeatedInput (name : String)
  | input (name : String) (fault : InputFault)
  | query (error : QueryError)
  deriving DecidableEq, Repr

namespace Failure

def message : Failure → String
  | usage error => error.message
  | configuration _ => "loading configuration"
  | malformedInput pair => "input must be NAME=FILE, got '" ++ pair ++ "'"
  | repeatedInput name => "input '" ++ name ++ "' given more than once"
  | input name _ => "reading input '" ++ name ++ "'"
  | query error => error.message

/-- The messages of what a failure goes back to, from the nearest on. -/
def causes : Failure → List String
  | configuration [] => ["not a settings file"]
  | configuration path => ["wrong kind of value for " ++ ".".intercalate path]
  | input _ fault => fault.messages
  | query error => error.causes
  | _ => []

def exitCode : Failure → Nat
  | usage _ => 2
  | _ => 1

/-- A text after a lead, with all further lines set in by the width of the lead. -/
def hang (lead text : String) : String :=
  let indent := '\n' :: List.replicate lead.length ' '
  lead ++ String.ofList (text.toList.flatMap fun c => if c = '\n' then indent else [c])

def renderCause (lead cause : String) : String :=
  "\n" ++ hang lead cause

/-- The list of causes: one alone is not numbered. -/
def renderCauses : List String → String
  | [] => ""
  | [cause] => "\n\nCaused by:" ++ renderCause "    " cause
  | causes =>
    "\n\nCaused by:" ++ String.join (causes.zipIdx.map fun entry =>
      renderCause ("    " ++ toString entry.2 ++ ": ") entry.1)

def render (failure : Failure) : String :=
  "Error: " ++ failure.message ++ renderCauses failure.causes ++ "\n"

end Failure

def splitInput? (pair : String) : Option (String × String) :=
  match pair.toList.dropWhile (· != '=') with
  | [] => none
  | _ :: file => some (String.ofList (pair.toList.takeWhile (· != '=')), String.ofList file)

namespace Surroundings

def readRelation (world : Surroundings) (file : String) : Except InputFault Relation := do
  let text ← (world.read file).mapError (.unreadable file)
  (Relation.parseJson text).mapError .invalid

def readInput (world : Surroundings) (inputs : Relations) (pair : String) :
    Except Failure Relations :=
  match splitInput? pair with
  | none => .error (.malformedInput pair)
  | some (name, file) =>
    if inputs.contains name then .error (.repeatedInput name)
    else
      match world.readRelation file with
      | .ok relation => .ok (inputs.insert name relation)
      | .error fault => .error (.input name fault)

/-- Reads the inputs in the order in which they are named. -/
def readInputs (world : Surroundings) (pairs : List String) : Except Failure Relations :=
  pairs.foldlM world.readInput .empty

def configuration (world : Surroundings) (options : Options) : Except Failure Config :=
  (Config.load options.config (fun file => (world.read file).toOption) world.environment).mapError
    .configuration

/-- The file of the log: the environment counts more than the configuration. -/
def logFile? (world : Surroundings) (config : Config) : Option String :=
  (world.environment.lookup "RELAT_LOG_FILE").or config.logging.file

/-- What is said about a log that cannot be opened. -/
def logNotice? (world : Surroundings) (config : Config) : Option String :=
  (world.logFile? config).bind fun file => (world.logFault? file).map fun fault =>
    "ERROR: Unable to open log file '" ++ file ++ "': " ++ fault.message ++ "\n"

def engine (world : Surroundings) (config : Config) (options : Options) : Engine :=
  let path := options.solver.getD config.engine.solverPath
  let solver : Solver := ⟨path, config.engine.extraArguments, world.start path⟩
  (Pool.ofEngine (solver.toEngine world.scratch) config.engine.workers).toEngine

def perform (world : Surroundings) (config : Config) (invocation : Invocation) :
    Except Failure String := do
  let options := invocation.options
  match invocation.verb with
  | .parse =>
    let e ← (Expr.parse invocation.query).mapError fun error => .query (.parse error)
    return e.render
  | .compile =>
    let inputs ← world.readInputs options.inputs
    let comments := config.compileOptions.comments && !options.noComments
    let query ← (Query.prepare invocation.query inputs ⟨comments⟩).mapError .query
    return query.program
  | .run =>
    let inputs ← world.readInputs options.inputs
    let answer ← (Query.run invocation.query inputs (world.engine config options)).mapError .query
    return (Json.ofRelation answer).renderPretty

end Surroundings

/-- What a session leaves: what it says about its log, and what it prints or why it fails. -/
structure Report where
  notice : Option String
  result : Except Failure String

namespace Report

def exitCode (report : Report) : Nat :=
  match report.result with
  | .ok _ => 0
  | .error failure => failure.exitCode

/-- What goes to the standard output. -/
def output (report : Report) : String :=
  match report.result with
  | .ok text => text
  | .error _ => ""

/-- What goes to the standard error. -/
def complaint (report : Report) : String :=
  report.notice.getD "" ++
    match report.result with
    | .ok _ => ""
    | .error failure => failure.render

end Report

def Surroundings.invoke (world : Surroundings) (invocation : Invocation) : Report :=
  match world.configuration invocation.options with
  | .error failure => ⟨none, .error failure⟩
  | .ok config =>
    ⟨world.logNotice? config, (world.perform config invocation).map (· ++ "\n")⟩

def Surroundings.answer (world : Surroundings) (arguments : List String) : Report :=
  match Request.parse arguments with
  | .error error => ⟨none, .error (.usage error)⟩
  | .ok (.help topic) => ⟨none, .ok topic.text⟩
  | .ok .version => ⟨none, .ok versionLine⟩
  | .ok (.invoke invocation) => world.invoke invocation

end RelQuery.CommandLine
