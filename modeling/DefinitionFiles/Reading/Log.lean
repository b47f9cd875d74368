import DefinitionFiles.Failure
import DefinitionFiles.Fingerprint

namespace DefinitionFiles

inductive LogLevel
  | warn
  | debug
  | trace
deriving DecidableEq, Repr

inductive LogEvent
  | read (source : String) (fingerprint : Fingerprint) (rows : Nat)
  | failed (source : String) (verbose : Bool) (failure : ReadFailure)
  | seeded (source category : String)
  | bound (source : String) (line columns groups : Nat) (fromHeader : Bool)
  | registered (source : String) (line : Nat) (category : String) (fields : Nat)
  | applied (source : String) (line filled : Nat)
deriving DecidableEq, Repr

namespace LogEvent

def level : LogEvent → LogLevel
  | failed _ true _ => .warn
  | read _ _ _ | failed _ false _ | seeded _ _ | bound _ _ _ _ _ => .debug
  | registered _ _ _ _ | applied _ _ _ => .trace

def message : LogEvent → String
  | read _ _ _ => "read definitions"
  | failed _ _ failure => failure.message
  | seeded _ _ => "defaults from file name"
  | bound _ _ _ _ _ => "bound columns"
  | registered _ _ _ _ => "registered defaults"
  | applied _ _ _ => "applied defaults"

end LogEvent

end DefinitionFiles
