import DefinitionFiles.Mapping.Session
import DefinitionFiles.Path

namespace DefinitionFiles

variable {η : Type}

abbrev SessionStep (η α : Type) := Except ReadFailure α × MappingState η

/-- The values that a held row is handed on with: its own, then the file defaults,
then those of the first of its categories that has any. Sub-rows of continuation
rows stay as they are. -/
def Handler.filled (handler : Handler η) (ctx : RecordContext) (state : MappingState η)
    (held : HeldRow) : MappingState η × Record × List Record :=
  let main := held.main.fill state.session.fileDefaults
  match state.table.first? (handler.categories main ctx state.handler) with
  | none => (state, main, held.subs)
  | some entry =>
      let groups := min held.groups held.subs.length
      let filled := entry.fill main (held.subs.take groups)
      (state.report (.applied ctx.source ctx.line filled.count), filled.main,
        filled.subs ++ held.subs.drop groups)

/-- Hands on the row that is held back, if there is one. It is given up even if the
handler refuses it. -/
def Handler.release (handler : Handler η) (config : MappingConfig) (place : RowPlace)
    (state : MappingState η) : SessionStep η Unit :=
  match state.session.held with
  | none => (.ok (), state)
  | some held =>
      let state := state.hold none
      match state.session.columns with
      | none => (.ok (), state)
      | some columns =>
          let place := { place with line := held.line }
          let ctx := state.session.context columns place
          let (state, main, subs) :=
            if config.fillsDefaults then handler.filled ctx state held
            else (state, held.main, held.subs)
          let (outcome, own) := handler.takeRecord main subs ctx state.handler
          (outcome.mapError place.refuse, (state.call (.record main subs ctx)).withHandler own)

def Handler.columnNames (handler : Handler η) (own : η) :
    FirstRow → Except Refusal (List String × Bool)
  | .header names => .ok (names, false)
  | .data =>
      match handler.columnsWithoutHeader own with
      | none => .error (.header .noHeader)
      | some names => .ok (names, true)

def columnsFor (required : List String) (names : List String) : Except Refusal Columns :=
  match Columns.ofHeader names with
  | .error fault => .error (.header fault)
  | .ok columns =>
      match required.find? (!columns.contains ·) with
      | some name => .error (.header (.missingName name))
      | none => .ok columns

def Handler.bindColumns (handler : Handler η) (place : RowPlace) (row : Row)
    (state : MappingState η) : SessionStep η Bool :=
  let (matched, own) := handler.readHeader row state.handler
  let state := (state.call (.header row)).withHandler own
  let bound := do
    let (names, isData) ← handler.columnNames own (← matched)
    return (← columnsFor (handler.requiredColumns own) names, isData)
  match bound with
  | .error error => (.error (place.refuse error), state)
  | .ok (columns, isData) =>
      let event := .bound place.source place.line columns.size columns.groups.length !isData
      (.ok isData,
        { state.report event with session := { state.session with columns := some columns } })

/-- Takes in a default row without its mark: its values are laid over those of its
category, which the handler tells from the row with the file defaults filled in. -/
def Handler.takeDefaultRow (handler : Handler η) (config : MappingConfig) (place : RowPlace)
    (row : Row) (state : MappingState η) : SessionStep η Unit :=
  match state.session.assign config row with
  | .error error => (.error (place.refuse error), state)
  | .ok (columns, parts) =>
      let ctx := state.session.context columns place
      let category :=
        handler.category (parts.main.fill state.session.fileDefaults) ctx state.handler
      let stated := Defaults.stated parts.main parts.subs
      let entry := state.table.merged category stated
      let state := { state with table := state.table.merge category stated }
      let state := state.report (.registered place.source place.line category entry.base.size)
      let (outcome, own) := handler.takeDefaults category entry ctx state.handler
      (outcome.mapError place.refuse, (state.call (.defaults category entry ctx)).withHandler own)

/-- Takes in a data row: a continuation row joins the sub-rows of the row held back,
any other row replaces it. -/
def Handler.takeDataRow (handler : Handler η) (config : MappingConfig) (place : RowPlace)
    (row : Row) (state : MappingState η) : SessionStep η Unit :=
  match state.session.assign config row with
  | .error error => (.error (place.refuse error), state)
  | .ok (columns, parts) =>
      if handler.continues parts.main (state.session.context columns place) state.handler then
        match state.session.held with
        | none => (.error (place.refuse (.malformed .looseContinuation)), state)
        | some held =>
            (.ok (), state.hold (some { held with subs := held.subs ++ parts.main :: parts.subs }))
      else
        match handler.release config place state with
        | (.error error, state) => (.error error, state)
        | (.ok (), state) =>
            (.ok (), state.hold (some ⟨parts.main, parts.subs, parts.subs.length, place.line⟩))

/-- Starts a source: all that is known of the one before is forgotten, and the name of
the file may seed defaults that beat those of the caller. -/
def Handler.start (handler : Handler η) (source : String) (options : SourceOptions)
    (state : MappingState η) : MappingState η :=
  let fileDefaults := options.defaults.getD ∅
  let name := (Path.fileName? source).getD source
  let state := state.call (.fileName name)
  match handler.deviceName name state.handler with
  | none => { state with session := { fileDefaults } }
  | some device =>
      { state.report (.seeded source device.category) with
        session := { fileDefaults := fileDefaults.overlay device.values, device := some device } }

/-- Takes in a row under the bound columns. A default row loses its mark for good
once the row held back is gone. -/
def Handler.takeBound (handler : Handler η) (config : MappingConfig) (row : Row)
    (place : RowPlace) (state : MappingState η) : Taken (MappingState η) :=
  if row.isDefault then
    if config.takesDefaults then
      match handler.release config place state with
      | (.error error, state) => ⟨.error error, row, state⟩
      | (.ok (), state) =>
          let (outcome, state) := handler.takeDefaultRow config place row.withoutMark state
          ⟨outcome, row.withoutMark, state⟩
    else ⟨.error (place.refuse .defaultsUnsupported), row, state⟩
  else
    let (outcome, state) := handler.takeDataRow config place row state
    ⟨outcome, row, state⟩

def Handler.takeRow (handler : Handler η) (config : MappingConfig) (row : Row)
    (place : RowPlace) (state : MappingState η) : Taken (MappingState η) :=
  match state.session.columns with
  | some _ => handler.takeBound config row place state
  | none =>
      match handler.bindColumns place row state with
      | (.error error, state) => ⟨.error error, row, state⟩
      | (.ok false, state) => ⟨.ok (), row, state⟩
      | (.ok true, state) => handler.takeBound config row place state

def Handler.sink (handler : Handler η) (config : MappingConfig) : Sink (MappingState η) where
  start source options state := (.ok (), handler.start source options state)
  take := handler.takeRow config
  finish := handler.release config

end DefinitionFiles
