import DefinitionFiles.Proofs.Mapping.Delivery
import DefinitionFiles.Proofs.Reading.Reader

namespace DefinitionFiles

variable {η : Type}

namespace MappingState

def after (calls : Array HookCall) (log : Array LogEvent) (state : MappingState η) :
    MappingState η :=
  { state with calls := calls ++ state.calls, log := log ++ state.log }

/-- A state of which only the handler and the table of defaults are left. -/
def fresh (state : MappingState η) : MappingState η :=
  { handler := state.handler, table := state.table }

variable (calls : Array HookCall) (log : Array LogEvent) (state : MappingState η)

@[simp] theorem after_handler : (state.after calls log).handler = state.handler := rfl

@[simp] theorem after_table : (state.after calls log).table = state.table := rfl

@[simp] theorem after_session : (state.after calls log).session = state.session := rfl

@[simp] theorem call_after (call : HookCall) :
    (state.after calls log).call call = (state.call call).after calls log := by
  simp [after, MappingState.call]

@[simp] theorem report_after (event : LogEvent) :
    (state.after calls log).report event = (state.report event).after calls log := by
  simp [after, report]

@[simp] theorem withHandler_after (own : η) :
    (state.after calls log).withHandler own = (state.withHandler own).after calls log := rfl

@[simp] theorem hold_after (held : Option HeldRow) :
    (state.after calls log).hold held = (state.hold held).after calls log := rfl

end MappingState

def SessionStep.after {α : Type} (calls : Array HookCall) (log : Array LogEvent)
    (step : SessionStep η α) : SessionStep η α := (step.1, step.2.after calls log)

def Taken.after (calls : Array HookCall) (log : Array LogEvent) (taken : Taken (MappingState η)) :
    Taken (MappingState η) := { taken with state := taken.state.after calls log }

def Arrival.after (calls : Array HookCall) (log : Array LogEvent) (arrival : Arrival η) :
    Arrival η := { arrival with state := arrival.state.after calls log }

namespace Handler

variable (handler : Handler η) (config : MappingConfig) (calls : Array HookCall)
  (log : Array LogEvent)

theorem filled_after (ctx : RecordContext) (state : MappingState η) (held : HeldRow) :
    handler.filled ctx (state.after calls log) held =
      let filled := handler.filled ctx state held
      (filled.1.after calls log, filled.2) := by
  simp only [filled, MappingState.after_session, MappingState.after_table,
    MappingState.after_handler, MappingState.report_after]
  split <;> rfl

theorem release_after (place : RowPlace) (state : MappingState η) :
    handler.release config place (state.after calls log) =
      SessionStep.after calls log (handler.release config place state) := by
  cases hh : state.session.held with
  | none => simp [release, hh, SessionStep.after]
  | some held =>
      cases hc : (state.hold none).session.columns with
      | none => simp [release, hh, hc, SessionStep.after]
      | some columns =>
          cases hf : config.fillsDefaults <;>
            simp [release, hh, hc, hf, SessionStep.after, filled_after]

theorem bindColumns_after (place : RowPlace) (row : Row) (state : MappingState η) :
    handler.bindColumns place row (state.after calls log) =
      SessionStep.after calls log (handler.bindColumns place row state) := by
  simp only [bindColumns, MappingState.after_handler, MappingState.call_after,
    MappingState.withHandler_after]
  split
  · rfl
  · simp only [MappingState.report_after]
    rfl

theorem takeDefaultRow_after (place : RowPlace) (row : Row) (state : MappingState η) :
    handler.takeDefaultRow config place row (state.after calls log) =
      SessionStep.after calls log (handler.takeDefaultRow config place row state) := by
  simp only [takeDefaultRow, MappingState.after_session, MappingState.after_handler,
    MappingState.after_table]
  cases state.session.assign config row with
  | error error => rfl
  | ok assigned =>
      simp [SessionStep.after, MappingState.after, MappingState.call, MappingState.report,
        MappingState.withHandler]

theorem takeDataRow_after (place : RowPlace) (row : Row) (state : MappingState η) :
    handler.takeDataRow config place row (state.after calls log) =
      SessionStep.after calls log (handler.takeDataRow config place row state) := by
  simp only [takeDataRow, MappingState.after_session, MappingState.after_handler, release_after]
  cases state.session.assign config row with
  | error error => rfl
  | ok assigned =>
      obtain ⟨columns, parts⟩ := assigned
      simp only
      split
      · cases state.session.held <;> rfl
      · generalize handler.release config place state = released
        obtain ⟨outcome, next⟩ := released
        cases outcome <;> rfl

theorem takeBound_after (row : Row) (place : RowPlace) (state : MappingState η) :
    handler.takeBound config row place (state.after calls log) =
      Taken.after calls log (handler.takeBound config row place state) := by
  simp only [takeBound, release_after, takeDataRow_after]
  split
  · split
    · generalize handler.release config place state = released
      obtain ⟨outcome, next⟩ := released
      cases outcome with
      | error error => rfl
      | ok _ => simp only [SessionStep.after, takeDefaultRow_after, Taken.after]
    · rfl
  · rfl

theorem takeRow_after (row : Row) (place : RowPlace) (state : MappingState η) :
    handler.takeRow config row place (state.after calls log) =
      Taken.after calls log (handler.takeRow config row place state) := by
  simp only [takeRow, MappingState.after_session, takeBound_after, bindColumns_after]
  cases state.session.columns with
  | some columns => rfl
  | none =>
      generalize handler.bindColumns place row state = bound
      obtain ⟨outcome, next⟩ := bound
      cases outcome with
      | error error => rfl
      | ok isData =>
          cases isData with
          | false => rfl
          | true => simp only [SessionStep.after, takeBound_after]

theorem start_after (source : String) (options : SourceOptions) (state : MappingState η) :
    handler.start source options (state.after calls log) =
      (handler.start source options state).after calls log := by
  simp only [start, MappingState.call_after, MappingState.after_handler]
  split
  · rfl
  · simp only [MappingState.report_after]
    rfl

theorem perform_after (call : SinkCall) (state : MappingState η) :
    (handler.sink config).perform call (state.after calls log) =
      SessionStep.after calls log ((handler.sink config).perform call state) := by
  cases call with
  | start source options => simp only [Sink.perform, sink, start_after, SessionStep.after]
  | row row place => simp only [Sink.perform, sink, takeRow_after, Taken.after, SessionStep.after]
  | finish place => simp only [Sink.perform, sink, release_after]

theorem run_after (script : List SinkCall) (state : MappingState η) :
    (handler.sink config).run script (state.after calls log) =
      SessionStep.after calls log ((handler.sink config).run script state) := by
  induction script generalizing state with
  | nil => rfl
  | cons call script ih =>
      simp only [Sink.run, perform_after, SessionStep.after] at ih ⊢
      cases ((handler.sink config).perform call state).1 with
      | error error => rfl
      | ok _ => exact ih _

theorem arrival?_after (call : SinkCall) (state : MappingState η) :
    handler.arrival? call (state.after calls log) =
      (handler.arrival? call state).map (Arrival.after calls log) := by
  cases call with
  | start source options => rfl
  | finish place => rfl
  | row row place =>
      simp only [arrival?, MappingState.after_session, bindColumns_after]
      cases state.session.columns with
      | some columns => rfl
      | none =>
          generalize handler.bindColumns place row state = bound
          obtain ⟨outcome, next⟩ := bound
          cases outcome with
          | error error => rfl
          | ok isData => cases isData <;> rfl

theorem arrivals_after (script : List SinkCall) (state : MappingState η) :
    handler.arrivals config script (state.after calls log) =
      (handler.arrivals config script state).map (Arrival.after calls log) := by
  induction script generalizing state with
  | nil => rfl
  | cons call script ih =>
      simp only [arrivals, arrival?_after, perform_after, SessionStep.after, List.map_append, ih]
      cases ((handler.sink config).perform call state).1 <;> cases handler.arrival? call state <;> rfl

theorem start_fresh (source : String) (options : SourceOptions) (state : MappingState η) :
    handler.start source options state =
      (handler.start source options state.fresh).after state.calls state.log := by
  rw [← start_after]
  simp only [start, MappingState.fresh, MappingState.after, MappingState.call]
  split <;> simp [MappingState.report]

/-- Reading a source goes as it goes with the handler and the table of defaults and nothing
else. -/
theorem readSource_fresh (reading : ReadingConfig) (source : String) (options : SourceOptions)
    (feed : Feed) (state : MappingState η) :
    let read := (handler.sink config).readSource reading source options feed state
    let alone := (handler.sink config).readSource reading source options feed state.fresh
    let script := readScript reading.limits source options feed
    read.outcome = alone.outcome ∧ read.log = alone.log ∧
      read.state = alone.state.after state.calls state.log ∧
      handler.arrivals config script state =
        (handler.arrivals config script state.fresh).map (Arrival.after state.calls state.log) := by
  intro read alone script
  -- every script opens with the start, and after it the two sessions are the same
  let later := script.tail
  have hran : (handler.sink config).run script state =
      SessionStep.after state.calls state.log ((handler.sink config).run script state.fresh) := by
    change (handler.sink config).run later (handler.start source options state) =
      SessionStep.after _ _ ((handler.sink config).run later (handler.start source options state.fresh))
    rw [start_fresh, run_after]
  have harrivals : handler.arrivals config script state =
      (handler.arrivals config script state.fresh).map (Arrival.after state.calls state.log) := by
    change handler.arrivals config later (handler.start source options state) =
      (handler.arrivals config later (handler.start source options state.fresh)).map _
    rw [start_fresh, arrivals_after]
  have ho : read.outcome = alone.outcome :=
    Sink.readToEnd_congr (sink_keepsRows handler config) reading source options feed
      (by rw [hran]; rfl)
  refine ⟨ho, congrArg (fun outcome => some (readEvent source options.verbose outcome)) ho, ?_,
    harrivals⟩
  calc read.state
      = ((handler.sink config).run script state).2 := readSource_state reading source options feed state
    _ = MappingState.after _ _ ((handler.sink config).run script state.fresh).2 := by rw [hran]; rfl
    _ = alone.state.after state.calls state.log := by rw [← readSource_state]

theorem readSource_alone (source : String) (options : SourceOptions) (feed : Feed)
    (reader : SourceReader (MappingState η)) :
    let sink := handler.sink config
    let read := reader.readSource sink source options feed
    let alone := sink.readSource reader.config source options feed reader.state.fresh
    let script := readScript reader.config.limits source options feed
    read.outcome = alone.outcome ∧ read.log = alone.log ∧
      read.state.state = alone.state.after reader.state.calls reader.state.log ∧
      handler.arrivals config script reader.state =
        (handler.arrivals config script reader.state.fresh).map
          (Arrival.after reader.state.calls reader.state.log) := by
  intro sink read alone script
  obtain ⟨hread, hreadlog, hreadstate⟩ := reader.readSource_eq sink source options feed
  obtain ⟨houtcome, hlog, hstate, harrivals⟩ :=
    readSource_fresh handler config reader.config source options feed reader.state
  exact ⟨hread.trans houtcome, hreadlog.trans hlog, hreadstate.trans hstate, harrivals⟩

end Handler

/-- A row as it comes to columns, with what the handler is asked about it from. -/
def Arrival.seen (arrival : Arrival η) : Row × RowPlace × MappingState η :=
  (arrival.row, arrival.place, { arrival.state with calls := #[], log := #[] })

namespace Handler

variable {handler : Handler η} {config : MappingConfig}

theorem placed_of_mem_arrivals {calls : List SinkCall} {state : MappingState η}
    {arrival : Arrival η} (h : arrival ∈ handler.arrivals config calls state) :
    arrival.placed.call ∈ calls := by
  obtain ⟨before, after, ha⟩ := List.append_of_mem h
  obtain ⟨earlier, call, later, rfl, -, hcall⟩ := arrivals_split ha
  rw [← (arrival?_eq_some config hcall).1]
  simp

theorem placed_of_mem_script {limits : Limits} {source : String} {options : SourceOptions}
    {feed : Feed} {placed : PlacedRow} (h : placed.call ∈ readScript limits source options feed) :
    placed ∈ placedRows source options.verbose (rowReads limits (.ofFeed limits feed)) := by
  rcases List.mem_cons.1 h with hs | h
  · cases hs
  · rcases List.mem_append.1 h with hr | hf
    · obtain ⟨row, hrow, he⟩ := List.mem_map.1 hr
      obtain rfl : row = placed := by
        cases row
        cases placed
        cases he
        rfl
      exact hrow
    · simp only [finishCalls] at hf
      split at hf <;> simp [PlacedRow.call] at hf

/-- Sources are read the same whatever was read before, if the handler and the table of defaults
are the same, and whatever of it is still in the sessions and the buffers of the readers: with the
same end, the same calls and the same rows in them, all rows of the source itself. -/
theorem readSource_isolated (handler : Handler η) (config : MappingConfig) (source : String)
    (options : SourceOptions) (feed : Feed) (reader other : SourceReader (MappingState η))
    (hlimits : other.config.limits = reader.config.limits)
    (hhandler : other.state.handler = reader.state.handler)
    (htable : other.state.table = reader.state.table) :
    let sink := handler.sink config
    let limits := reader.config.limits
    let read := reader.readSource sink source options feed
    let read' := other.readSource sink source options feed
    let state := read.state.state
    let state' := read'.state.state
    let script := readScript limits source options feed
    let placed := placedRows source options.verbose (rowReads limits (.ofFeed limits feed))
    let arrivals := handler.arrivals config script reader.state
    read'.outcome = read.outcome ∧ read'.log = read.log ∧
      state'.handler = state.handler ∧ state'.table = state.table ∧
      state'.session = state.session ∧
      (handler.arrivals config script other.state).map Arrival.seen = arrivals.map Arrival.seen ∧
      (∃ log : Array LogEvent,
        state.log = reader.state.log ++ log ∧ state'.log = other.state.log ++ log) ∧
      ∃ (calls : List HookCall) (deliveries : List (Delivery η)) (dropped : List (Arrival η)),
        state.calls.toList = reader.state.calls.toList ++ calls ∧
        state'.calls.toList = other.state.calls.toList ++ calls ∧
        calls = openingCalls source placed ++ deliveries.map (handler.deliveryCall config) ∧
        arrivals = deliveries.flatMap Delivery.rows ++ dropped ∧
        ∀ arrival ∈ arrivals, arrival.placed ∈ placed := by
  intro sink limits read read' state state' script placed arrivals
  have hfresh : other.state.fresh = reader.state.fresh := by
    simp [MappingState.fresh, hhandler, htable]
  obtain ⟨houtcome, hlog, hstate, harrivals⟩ :=
    readSource_alone handler config source options feed reader
  obtain ⟨houtcome', hlog', hstate', harrivals'⟩ :=
    readSource_alone handler config source options feed other
  have hread : sink.readSource other.config source options feed reader.state.fresh =
      sink.readSource reader.config source options feed reader.state.fresh := by
    simp only [Sink.readSource, Sink.readToEnd, hlimits]
  rw [hfresh, hread] at houtcome' hlog' hstate'
  rw [hfresh, hlimits] at harrivals'
  have hcalls : state.calls.toList = _ := congrArg (fun state => state.calls.toList) hstate
  have hcalls' : state'.calls.toList = _ := congrArg (fun state => state.calls.toList) hstate'
  simp only [MappingState.after, Array.toList_append] at hcalls hcalls'
  have hseen : ∀ (calls : Array HookCall) (log : Array LogEvent) (rows : List (Arrival η)),
      (rows.map (Arrival.after calls log)).map Arrival.seen = rows.map Arrival.seen := by
    intro calls log rows
    rw [List.map_map]
    rfl
  obtain ⟨deliveries, dropped, hrows, hdelivers, -⟩ :=
    script_delivers handler config limits source options feed reader.state
  have hran : state = (sink.run script reader.state).2 :=
    (reader.readSource_eq sink source options feed).2.2.trans
      (readSource_state reader.config source options feed reader.state)
  have hadded : state.calls.toList = reader.state.calls.toList ++
      (openingCalls source placed ++ deliveries.map (handler.deliveryCall config)) := by
    rw [hran, hdelivers.calls, offered_start_calls, List.append_assoc]
  have halone := List.append_cancel_left (hcalls.symm.trans hadded)
  refine ⟨houtcome'.trans houtcome.symm, hlog'.trans hlog.symm, ?_, ?_, ?_, ?_,
    ⟨_, congrArg MappingState.log hstate, congrArg MappingState.log hstate'⟩,
    _, deliveries, dropped, hadded, ?_, rfl, hrows, ?_⟩
  · exact (congrArg MappingState.handler hstate').trans (congrArg MappingState.handler hstate).symm
  · exact (congrArg MappingState.table hstate').trans (congrArg MappingState.table hstate).symm
  · exact (congrArg MappingState.session hstate').trans (congrArg MappingState.session hstate).symm
  · rw [harrivals', show arrivals = _ from harrivals, hseen, hseen]
  · rw [← halone]
    exact hcalls'
  · intro arrival ha
    exact placed_of_mem_script (placed_of_mem_arrivals ha)

/-- The source read before fails between quotes, with a row held back. -/
theorem readSource_isolated_aborted :
    let sink := lenient.sink .takingDefaults
    let first : SourceReader (MappingState Unit) := { state := { handler := () } }
    let broken := Feed.ofText "id,v\na,1\nc,\"b\nd" ++ [.failure "reset"]
    let aborted := (first.readSource sink "a.csv" {} broken).state
    let read := aborted.readSource sink "b.csv" {} (.ofText "id,v\n,2\n")
    aborted.buffers = ⟨#[100], "b"⟩ ∧ aborted.state.session.held.isSome = true ∧
      read.log = some (.failed "b.csv" false (.refused "b.csv" 2 (.malformed .looseContinuation))) := by
  intro sink first broken aborted read
  have hlimits : aborted.config.limits = {} := by decide +kernel
  have htable : aborted.state.table = {} := by decide +kernel
  obtain ⟨-, hlog, -⟩ := readSource_isolated lenient .takingDefaults "b.csv" {}
    (.ofText "id,v\n,2\n") first aborted hlimits rfl htable
  refine ⟨by decide +kernel, by decide +kernel, ?_⟩
  rw [hlog]
  decide +kernel

end Handler

end DefinitionFiles
