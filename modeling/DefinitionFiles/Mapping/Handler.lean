import DefinitionFiles.DeviceName
import DefinitionFiles.Defaults.Table

namespace DefinitionFiles

def typeColumn : String := "type"

structure MappingConfig where
  takesDefaults : Bool := false
  fillsDefaults : Bool := true
  width : RowWidth := .exact
deriving DecidableEq, Repr

def MappingConfig.takingDefaults : MappingConfig := { takesDefaults := true }

structure RecordContext where
  source : String
  line : Nat
  verbose : Bool
  columns : Columns
  /-- The defaults of the caller, overlaid with those that the file name states. -/
  fileDefaults : Record
  device : Option DeviceName
deriving DecidableEq

/-- The category that a record states, else the one of the file name, else the one
that the file defaults state. -/
def RecordContext.usualCategory (ctx : RecordContext) (record : Record) : String :=
  let stated := record.value typeColumn
  if !stated.isEmpty then stated
  else
    match ctx.device with
    | some device => device.category
    | none => ctx.fileDefaults.value typeColumn

/-- How the first row of a source is taken: as a header naming these columns, or
as data under the columns of the handler. -/
inductive FirstRow
  | header (names : List String)
  | data
deriving DecidableEq, Repr

/-- Gives the rows of sources their meaning. Every part may depend on the
state of the handler, and those that take something in may change it. -/
structure Handler (η : Type) where
  takeRecord : Record → List Record → RecordContext → η → Except Refusal Unit × η
  readHeader : Row → η → Except Refusal FirstRow × η :=
    fun row state => (.ok (.header row), state)
  columnsWithoutHeader : η → Option (List String) := fun _ => none
  requiredColumns : η → List String := fun _ => []
  continues : Record → RecordContext → η → Bool := fun _ _ _ => false
  category : Record → RecordContext → η → String := fun record ctx _ => ctx.usualCategory record
  /-- The categories whose defaults a row may get, the first one known being used. -/
  categories : Record → RecordContext → η → List String :=
    fun record ctx state => [category record ctx state]
  takeDefaults : String → Defaults → RecordContext → η → Except Refusal Unit × η :=
    fun _ _ _ state => (.ok (), state)
  deviceName : String → η → Option DeviceName := fun _ _ => none

inductive HookCall
  | fileName (name : String)
  | header (row : Row)
  | record (main : Record) (subs : List Record) (ctx : RecordContext)
  | defaults (category : String) (entry : Defaults) (ctx : RecordContext)
deriving DecidableEq

end DefinitionFiles
