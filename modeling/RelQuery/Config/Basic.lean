import RelQuery.Compile.Basic
import RelQuery.Engine.Solver
import RelQuery.Json.Basic

/-!
# Configuration

The settings of the program, each of which has a default.
-/

namespace RelQuery

structure EngineConfig where
  solverPath : String := "souffle"
  workers : Nat := 5
  extraArguments : List String := defaultArguments
  deriving DecidableEq, Repr

structure LogConfig where
  level : String := "info"
  format : String := "text"
  file : Option String := none
  deriving DecidableEq, Repr

structure OutputConfig where
  comments : Bool := true
  deriving DecidableEq, Repr

structure Config where
  engine : EngineConfig := {}
  logging : LogConfig := {}
  output : OutputConfig := {}
  deriving DecidableEq, Repr

namespace Config

def compileOptions (config : Config) : Compile.Options :=
  ⟨config.output.comments⟩

end Config

namespace Json

def ofStrings (items : List String) : Json :=
  .array (items.map .string)

def ofEngineConfig (config : EngineConfig) : Json :=
  .object [("souffle_path", .string config.solverPath), ("workers", .int config.workers),
    ("extra_args", ofStrings config.extraArguments)]

/-- A log file is written only where there is one. -/
def ofLogConfig (config : LogConfig) : Json :=
  .object ([("level", .string config.level), ("format", .string config.format)]
    ++ config.file.toList.map fun file => ("file", .string file))

def ofOutputConfig (config : OutputConfig) : Json :=
  .object [("emit_comments", .bool config.comments)]

def ofConfig (config : Config) : Json :=
  .object [("engine", ofEngineConfig config.engine), ("logging", ofLogConfig config.logging),
    ("translation", ofOutputConfig config.output)]

end Json

end RelQuery
