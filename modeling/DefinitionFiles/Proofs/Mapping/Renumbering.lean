import DefinitionFiles.Proofs.Mapping.Isolation
import DefinitionFiles.Proofs.Reading.Padding

namespace DefinitionFiles

variable {η : Type}

def RecordContext.renumber (f : Nat → Nat) (ctx : RecordContext) : RecordContext :=
  { ctx with line := f ctx.line }

def HookCall.renumber (f : Nat → Nat) : HookCall → HookCall
  | .fileName name => .fileName name
  | .header row => .header row
  | .record main subs ctx => .record main subs (ctx.renumber f)
  | .defaults category entry ctx => .defaults category entry (ctx.renumber f)

def LogEvent.renumber (f : Nat → Nat) : LogEvent → LogEvent
  | .read source fingerprint rows => .read source fingerprint rows
  | .failed source verbose failure => .failed source verbose (failure.renumber f)
  | .seeded source category => .seeded source category
  | .bound source line columns groups fromHeader => .bound source (f line) columns groups fromHeader
  | .registered source line category fields => .registered source (f line) category fields
  | .applied source line filled => .applied source (f line) filled

def HeldRow.renumber (f : Nat → Nat) (held : HeldRow) : HeldRow :=
  { held with line := f held.line }

def Session.renumber (f : Nat → Nat) (session : Session) : Session :=
  { session with held := session.held.map (HeldRow.renumber f) }

def SinkCall.renumber (f : Nat → Nat) : SinkCall → SinkCall
  | .start source options => .start source options
  | .row fields place => .row fields (place.renumber f)
  | .finish place => .finish (place.renumber f)

namespace MappingState

def renumber (f : Nat → Nat) (state : MappingState η) : MappingState η :=
  { state with
    session := state.session.renumber f
    calls := state.calls.map (HookCall.renumber f)
    log := state.log.map (LogEvent.renumber f) }

variable (f : Nat → Nat) (state : MappingState η)

@[simp] theorem renumber_handler : (state.renumber f).handler = state.handler := rfl

@[simp] theorem renumber_table : (state.renumber f).table = state.table := rfl

@[simp] theorem renumber_session : (state.renumber f).session = state.session.renumber f := rfl

@[simp] theorem renumber_held :
    (state.renumber f).session.held = state.session.held.map (HeldRow.renumber f) := rfl

@[simp] theorem call_renumber (call : HookCall) :
    (state.renumber f).call (call.renumber f) = (state.call call).renumber f := by
  simp [renumber, MappingState.call]

@[simp] theorem report_renumber (event : LogEvent) :
    (state.renumber f).report (event.renumber f) = (state.report event).renumber f := by
  simp [renumber, report]

@[simp] theorem withHandler_renumber (own : η) :
    (state.renumber f).withHandler own = (state.withHandler own).renumber f := rfl

end MappingState

def SessionStep.renumber {α : Type} (f : Nat → Nat) (step : SessionStep η α) : SessionStep η α :=
  (step.1.mapError (ReadFailure.renumber f), step.2.renumber f)

def Taken.renumber (f : Nat → Nat) (taken : Taken (MappingState η)) : Taken (MappingState η) :=
  { taken with
    outcome := taken.outcome.mapError (ReadFailure.renumber f)
    state := taken.state.renumber f }

theorem RowPlace.mapError_refuse_renumber {α : Type} (f : Nat → Nat) (place : RowPlace)
    (outcome : Except Refusal α) :
    outcome.mapError (place.renumber f).refuse =
      (outcome.mapError place.refuse).mapError (ReadFailure.renumber f) := by
  cases outcome <;> rfl

namespace Handler

theorem bindColumns_renumber (handler : Handler η) (f : Nat → Nat) (place : RowPlace) (row : Row)
    (state : MappingState η) :
    handler.bindColumns (place.renumber f) row (state.renumber f) =
      SessionStep.renumber f (handler.bindColumns place row state) := by
  have hcall : (state.renumber f).call (.header row) = (state.call (.header row)).renumber f :=
    MappingState.call_renumber f state (.header row)
  simp only [bindColumns, MappingState.renumber_handler, hcall, MappingState.withHandler_renumber]
  split
  · rfl
  · rename_i columns isData _
    let own := (handler.readHeader row state.handler).2
    let event := LogEvent.bound place.source place.line columns.size columns.groups.length !isData
    have hreport := MappingState.report_renumber f ((state.call (.header row)).withHandler own) event
    simp only [event, own, LogEvent.renumber] at hreport
    simp only [RowPlace.renumber, hreport]
    rfl

theorem start_renumber (handler : Handler η) (f : Nat → Nat) (source : String)
    (options : SourceOptions) (state : MappingState η) :
    handler.start source options (state.renumber f) =
      (handler.start source options state).renumber f := by
  have hcall : ∀ name, (state.renumber f).call (.fileName name) =
      (state.call (.fileName name)).renumber f :=
    fun name => MappingState.call_renumber f state (.fileName name)
  simp only [start, hcall, MappingState.renumber_handler]
  cases handler.deviceName ((Path.fileName? source).getD source) (state.call (.fileName
      ((Path.fileName? source).getD source))).handler with
  | none => rfl
  | some device =>
      have hreport := MappingState.report_renumber f (state.call (.fileName
        ((Path.fileName? source).getD source))) (.seeded source device.category)
      simp only [LogEvent.renumber] at hreport
      simp only [hreport]
      rfl

/-- Whether the parts of a handler that are told the line of a row do not depend on it. -/
structure IgnoresLines (handler : Handler η) : Prop where
  takeRecord : ∀ main subs (ctx : RecordContext) line state,
    handler.takeRecord main subs { ctx with line := line } state =
      handler.takeRecord main subs ctx state
  continues : ∀ main (ctx : RecordContext) line state,
    handler.continues main { ctx with line := line } state = handler.continues main ctx state
  category : ∀ main (ctx : RecordContext) line state,
    handler.category main { ctx with line := line } state = handler.category main ctx state
  categories : ∀ main (ctx : RecordContext) line state,
    handler.categories main { ctx with line := line } state = handler.categories main ctx state
  takeDefaults : ∀ category entry (ctx : RecordContext) line state,
    handler.takeDefaults category entry { ctx with line := line } state =
      handler.takeDefaults category entry ctx state

variable {handler : Handler η} (hlines : handler.IgnoresLines) (config : MappingConfig)
  (f : Nat → Nat)
include hlines

theorem filled_renumber (ctx : RecordContext) (state : MappingState η) (held : HeldRow) :
    handler.filled (ctx.renumber f) (state.renumber f) (held.renumber f) =
      let filled := handler.filled ctx state held
      (filled.1.renumber f, filled.2) := by
  have hcategories : ∀ main, handler.categories main (ctx.renumber f) state.handler =
      handler.categories main ctx state.handler :=
    fun main => hlines.categories main ctx (f ctx.line) state.handler
  simp only [filled, MappingState.renumber_handler, MappingState.renumber_table, hcategories]
  simp only [MappingState.renumber_session, Session.renumber, HeldRow.renumber]
  cases state.table.first? (handler.categories (held.main.fill state.session.fileDefaults) ctx
      state.handler) with
  | none => rfl
  | some entry => simp only [← MappingState.report_renumber, LogEvent.renumber, RecordContext.renumber]

theorem handOn_renumber (place : RowPlace) (ctx : RecordContext)
    (handed : MappingState η × Record × List Record) :
    handler.handOn (place.renumber f) (ctx.renumber f) (handed.1.renumber f, handed.2) =
      SessionStep.renumber f (handler.handOn place ctx handed) := by
  obtain ⟨state, main, subs⟩ := handed
  have htake : handler.takeRecord main subs (ctx.renumber f) state.handler =
      handler.takeRecord main subs ctx state.handler :=
    hlines.takeRecord main subs ctx (f ctx.line) state.handler
  have hcall := MappingState.call_renumber f state (.record main subs ctx)
  simp only [HookCall.renumber] at hcall
  simp only [handOn, MappingState.renumber_handler, htake, hcall, RowPlace.mapError_refuse_renumber,
    MappingState.withHandler_renumber, SessionStep.renumber]

theorem release_renumber (place : RowPlace) (state : MappingState η) :
    handler.release config (place.renumber f) (state.renumber f) =
      SessionStep.renumber f (handler.release config place state) := by
  cases hcolumns : state.session.columns with
  | none =>
      have hcolumns' : (state.renumber f).session.columns = none := hcolumns
      rw [release_of_unbound handler config hcolumns, release_of_unbound handler config hcolumns']
      rfl
  | some columns =>
      have hcolumns' : (state.renumber f).session.columns = some columns := hcolumns
      cases hheld : state.session.held with
      | none =>
          have hheld' : (state.renumber f).session.held = none := by
            rw [MappingState.renumber_held, hheld]
            rfl
          rw [release_of_none handler config hheld, release_of_none handler config hheld']
          rfl
      | some held =>
          have hheld' : (state.renumber f).session.held = some (held.renumber f) := by
            rw [MappingState.renumber_held, hheld]
            rfl
          rw [release_of_held handler config hheld hcolumns,
            release_of_held handler config hheld' hcolumns']
          let place' : RowPlace := { place with line := held.line }
          let ctx := (state.hold none).session.context columns place'
          have hhanded : handler.handed config (ctx.renumber f) ((state.hold none).renumber f)
                (held.renumber f) =
              let handed := handler.handed config ctx (state.hold none) held
              (handed.1.renumber f, handed.2) := by
            simp only [handed]
            cases config.fillsDefaults with
            | false => rfl
            | true => exact filled_renumber hlines f ctx (state.hold none) held
          have hon := handOn_renumber hlines f place' ctx
            (handler.handed config ctx (state.hold none) held)
          rw [← hon]
          exact congrArg (handler.handOn (place'.renumber f) (ctx.renumber f)) hhanded

theorem enter_renumber (place : RowPlace) (ctx : RecordContext) (category : String)
    (stated : Defaults) (state : MappingState η) :
    handler.enter (place.renumber f) (ctx.renumber f) category stated (state.renumber f) =
      SessionStep.renumber f (handler.enter place ctx category stated state) := by
  let entry := state.table.merged category stated
  let event := LogEvent.registered place.source place.line category entry.base.size
  let merged := { state with table := state.table.merge category stated }
  have htake : handler.takeDefaults category entry (ctx.renumber f) state.handler =
      handler.takeDefaults category entry ctx state.handler :=
    hlines.takeDefaults category entry ctx (f ctx.line) state.handler
  have hcalled : ((merged.renumber f).report (event.renumber f)).call
        (.defaults category entry (ctx.renumber f)) =
      ((merged.report event).call (.defaults category entry ctx)).renumber f := by
    rw [MappingState.report_renumber]
    exact MappingState.call_renumber f (merged.report event) (.defaults category entry ctx)
  let took := handler.takeDefaults category entry (ctx.renumber f) state.handler
  calc handler.enter (place.renumber f) (ctx.renumber f) category stated (state.renumber f)
      = (took.1.mapError (place.renumber f).refuse,
          (((merged.renumber f).report (event.renumber f)).call
            (.defaults category entry (ctx.renumber f))).withHandler took.2) := rfl
    _ = SessionStep.renumber f (handler.enter place ctx category stated state) := by
        simp only [took, htake, hcalled, RowPlace.mapError_refuse_renumber]
        rfl

theorem takeDefaultRow_renumber (place : RowPlace) (row : Row) (state : MappingState η) :
    handler.takeDefaultRow config (place.renumber f) row (state.renumber f) =
      SessionStep.renumber f (handler.takeDefaultRow config place row state) := by
  have hassign : (state.renumber f).session.assign config row = state.session.assign config row := rfl
  cases ha : state.session.assign config row with
  | error error =>
      simp only [takeDefaultRow, hassign, ha]
      rfl
  | ok assigned =>
      obtain ⟨columns, parts⟩ := assigned
      let ctx := state.session.context columns place
      let main := parts.main.fill state.session.fileDefaults
      have hcategory : handler.category main (ctx.renumber f) state.handler =
          handler.category main ctx state.handler :=
        hlines.category main ctx (f place.line) state.handler
      rw [takeDefaultRow_of_assign handler ha, takeDefaultRow_of_assign handler (hassign.trans ha)]
      simp only
      rw [← enter_renumber hlines f place, ← hcategory]
      rfl

theorem takeDataRow_renumber (place : RowPlace) (row : Row) (state : MappingState η) :
    handler.takeDataRow config (place.renumber f) row (state.renumber f) =
      SessionStep.renumber f (handler.takeDataRow config place row state) := by
  have hassign : (state.renumber f).session.assign config row = state.session.assign config row := rfl
  simp only [takeDataRow, hassign, release_renumber hlines]
  cases state.session.assign config row with
  | error error => rfl
  | ok assigned =>
      obtain ⟨columns, parts⟩ := assigned
      have hcontinues : handler.continues parts.main
            ((state.renumber f).session.context columns (place.renumber f))
            (state.renumber f).handler =
          handler.continues parts.main (state.session.context columns place) state.handler :=
        hlines.continues parts.main (state.session.context columns place) (f place.line) state.handler
      simp only [hcontinues]
      split
      · cases hh : state.session.held with
        | none =>
            have hheld : (state.renumber f).session.held = none := by simp [Session.renumber, hh]
            simp only [hheld]
            rfl
        | some held =>
            have hheld : (state.renumber f).session.held = some (held.renumber f) := by
              simp [Session.renumber, hh]
            simp only [hheld]
            rfl
      · generalize handler.release config place state = released
        obtain ⟨outcome, next⟩ := released
        cases outcome <;> rfl

theorem takeBound_renumber (row : Row) (place : RowPlace) (state : MappingState η) :
    handler.takeBound config row (place.renumber f) (state.renumber f) =
      Taken.renumber f (handler.takeBound config row place state) := by
  simp only [takeBound, release_renumber hlines, takeDataRow_renumber hlines]
  split
  · split
    · generalize handler.release config place state = released
      obtain ⟨outcome, next⟩ := released
      cases outcome with
      | error error => rfl
      | ok _ =>
          simp only [SessionStep.renumber, Except.mapError, takeDefaultRow_renumber hlines, Taken.renumber]
    · rfl
  · rfl

theorem takeRow_renumber (row : Row) (place : RowPlace) (state : MappingState η) :
    handler.takeRow config row (place.renumber f) (state.renumber f) =
      Taken.renumber f (handler.takeRow config row place state) := by
  have hcolumns : (state.renumber f).session.columns = state.session.columns := rfl
  simp only [takeRow, hcolumns, takeBound_renumber hlines, bindColumns_renumber]
  cases state.session.columns with
  | some columns => rfl
  | none =>
      generalize handler.bindColumns place row state = bound
      obtain ⟨outcome, next⟩ := bound
      cases outcome with
      | error error => rfl
      | ok isData =>
          cases isData with
          | false => rfl
          | true => simp only [SessionStep.renumber, Except.mapError, takeBound_renumber hlines]

theorem perform_renumber (call : SinkCall) (state : MappingState η) :
    (handler.sink config).perform (call.renumber f) (state.renumber f) =
      SessionStep.renumber f ((handler.sink config).perform call state) := by
  cases call with
  | start source options =>
      simp only [SinkCall.renumber, Sink.perform, sink, start_renumber, SessionStep.renumber]
      rfl
  | row row place =>
      simp only [SinkCall.renumber, Sink.perform, sink, takeRow_renumber hlines, Taken.renumber,
        SessionStep.renumber]
  | finish place => simp only [SinkCall.renumber, Sink.perform, sink, release_renumber hlines]

theorem run_renumber (script : List SinkCall) (state : MappingState η) :
    (handler.sink config).run (script.map (SinkCall.renumber f)) (state.renumber f) =
      SessionStep.renumber f ((handler.sink config).run script state) := by
  induction script generalizing state with
  | nil => rfl
  | cons call script ih =>
      simp only [List.map_cons, Sink.run, perform_renumber hlines, SessionStep.renumber] at ih ⊢
      cases ((handler.sink config).perform call state).1 with
      | error error => rfl
      | ok _ => exact ih _

end Handler

end DefinitionFiles
