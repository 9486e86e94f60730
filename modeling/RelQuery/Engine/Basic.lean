import RelQuery.Directory
import RelQuery.Relation.Basic
import RelQuery.Text.Quoted

/-!
# Datalog engines

An engine takes the text of a program, the relations that the program reads and the types of the
relations that are to be read back.  It gives those of them that the program wrote.
-/

namespace RelQuery

abbrev Relations : Type :=
  NameMap Relation

abbrev Signatures : Type :=
  NameMap (List ColumnType)

/-- Why a value cannot be written as a fact. -/
inductive FactFault where
  | brokenSymbol (symbol : String)
  | oversizedNumber (value : Int)
  deriving DecidableEq, Repr

def FactFault.message : FactFault → String
  | brokenSymbol symbol => "symbol " ++ Text.quoteString symbol ++ " contains a tab or line break"
  | oversizedNumber value => "number " ++ toString value ++ " does not fit in 32 bits"

/-- Why an output is not a relation of the expected types.  Lines count from one. -/
inductive OutputFault where
  | wrongWidth (line found expected : Nat)
  | notNumber (line : Nat) (field : String)
  deriving DecidableEq, Repr

def OutputFault.message : OutputFault → String
  | wrongWidth line found expected => s!"line {line} has {found} columns, expected {expected}"
  | notNumber line field => s!"line {line}: " ++ Text.quoteString field ++ " is not a number"

inductive EngineError where
  | file (fault : FileFault)
  | missing (path : String)
  | rejected (complaint : String)
  | invalidFact (relation : String) (fault : FactFault)
  | malformedOutput (relation : String) (fault : OutputFault)
  | poolClosed
  | crashed
  deriving DecidableEq, Repr

def EngineError.message : EngineError → String
  | file fault => "I/O error: " ++ fault.message
  | missing path => "Datalog engine not found: " ++ path
  | rejected complaint => "Souffle failed:\n" ++ complaint
  | invalidFact relation fault =>
    "Cannot write fact for relation " ++ relation ++ ": " ++ fault.message
  | malformedOutput relation fault =>
    "Malformed output for relation " ++ relation ++ ": " ++ fault.message
  | poolClosed => "Engine pool is closed"
  | crashed => "Engine worker failed"

/-- The message of what an engine error goes back to. -/
def EngineError.causes : EngineError → List String
  | file fault => [fault.message]
  | _ => []

structure Engine where
  run : String → Relations → Signatures → Except EngineError Relations

end RelQuery
