import DefinitionFiles.Mapping.Handler
import DefinitionFiles.Reading.Log
import DefinitionFiles.Reading.Sink

namespace DefinitionFiles

variable {η : Type}

/-- A row held back for the continuation rows that may follow it. The first
`groups` sub-rows are its own. -/
structure HeldRow where
  main : Record
  subs : List Record
  groups : Nat
  line : Nat
deriving DecidableEq

structure Session where
  columns : Option Columns := none
  held : Option HeldRow := none
  fileDefaults : Record := ∅
  device : Option DeviceName := none
deriving DecidableEq

def Session.context (session : Session) (columns : Columns) (place : RowPlace) : RecordContext :=
  { source := place.source, line := place.line, verbose := place.verbose, columns,
    fileDefaults := session.fileDefaults, device := session.device }

def Session.assign (session : Session) (config : MappingConfig) (row : Row) :
    Except Refusal (Columns × RecordParts) :=
  match session.columns with
  | none => .error (.header .unbound)
  | some columns =>
      match columns.assign config.width row with
      | .error fault => .error (.malformed fault)
      | .ok parts => .ok (columns, parts)

/-- The state of a reader with a handler, with all that the handler was handed and
all that was reported so far. -/
structure MappingState (η : Type) where
  handler : η
  table : DefaultsTable := {}
  session : Session := {}
  calls : Array HookCall := #[]
  log : Array LogEvent := #[]

namespace MappingState

def call (state : MappingState η) (call : HookCall) : MappingState η :=
  { state with calls := state.calls.push call }

def report (state : MappingState η) (event : LogEvent) : MappingState η :=
  { state with log := state.log.push event }

def withHandler (state : MappingState η) (handler : η) : MappingState η :=
  { state with handler }

def hold (state : MappingState η) (held : Option HeldRow) : MappingState η :=
  { state with session := { state.session with held } }

def written (state : MappingState η) (record : Record) : String :=
  match state.session.columns with
  | some columns => columns.writtenRecord record
  | none => record.writtenByName

end MappingState

end DefinitionFiles
