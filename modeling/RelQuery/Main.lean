import RelQuery.CommandLine.Session

/-!
# The program

Reads the files and the environment that a command line speaks of, answers it, and prints the
answer.  No solver is started from here: to a query that needs one, the answer is that it is
missing.
-/

namespace RelQuery.CommandLine

def faultOf : IO.Error → FileFault
  | .permissionDenied .. => .permissionDenied
  | .inappropriateType .. => .isDirectory
  | _ => .notFound

/-- The text of a file, or why there is none. -/
def fetch (file : String) : IO (Except FileFault String) := do
  try
    let bytes ← IO.FS.readBinFile file
    return match String.fromUTF8? bytes with
      | some text => .ok text
      | none => .error .notText
  catch error => return .error (faultOf error)

/-- Why a file cannot be written to at its end, if it cannot. -/
def probe (file : String) : IO (Option FileFault) := do
  try
    let _ ← IO.FS.Handle.mk file .append
    return none
  catch error => return some (faultOf error)

def variablesOf (group : String) (settings : List String) : List String :=
  ("RELAT_" ++ group) :: settings.map fun setting => "RELAT_" ++ group ++ "__" ++ setting.toUpper

/-- The variables that can hold a setting, and the one that names the log. -/
def settingVariables : List String :=
  variablesOf "ENGINE" EngineConfig.settingNames ++ variablesOf "LOGGING" LogConfig.settingNames
    ++ variablesOf "TRANSLATION" OutputConfig.settingNames ++ ["RELAT_LOG_FILE"]

def environment : IO (List (String × String)) := do
  let values ← settingVariables.mapM fun name => do
    return (← IO.getEnv name).toList.map fun value => (name, value)
  return values.flatten

def filesOf (invocation : Invocation) : List String :=
  (match invocation.options.config with
    | some file => [file]
    | none => Config.standardFiles)
  ++ invocation.options.inputs.filterMap fun pair => (splitInput? pair).map (·.2)

/-- What an invocation finds around it; the log is not tried. -/
def survey (invocation : Invocation) : IO Surroundings := do
  let texts ← (filesOf invocation).mapM fun file => do return (file, ← fetch file)
  return {
    read := fun file => (texts.lookup file).getD (.error .notFound)
    logFault? := fun _ => none
    environment := ← environment
    start := fun _ _ => .error .missing
    scratch := "." }

/-- The log that an invocation writes, and why it cannot be opened. -/
def logFaultOf (world : Surroundings) (invocation : Invocation) : IO (Option FileFault) :=
  match world.configuration invocation.options with
  | .error _ => return none
  | .ok config =>
    match world.logFile? config with
    | some file => probe file
    | none => return none

def serve (invocation : Invocation) : IO Report := do
  let world ← survey invocation
  let fault ← logFaultOf world invocation
  return { world with logFault? := fun _ => fault }.invoke invocation

def reportOn (arguments : List String) : IO Report :=
  match Request.parse arguments with
  | .error error => return ⟨none, .error (.usage error)⟩
  | .ok (.help topic) => return ⟨none, .ok topic.text⟩
  | .ok .version => return ⟨none, .ok versionLine⟩
  | .ok (.invoke invocation) => serve invocation

end RelQuery.CommandLine

def main (arguments : List String) : IO UInt32 := do
  let report ← RelQuery.CommandLine.reportOn arguments
  IO.print report.output
  IO.eprint report.complaint
  return report.exitCode.toUInt32
