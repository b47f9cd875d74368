import DefinitionFiles.Command.Gathered
import DefinitionFiles.Proofs.Mapping.Heard

namespace DefinitionFiles.Command

variable {required : List String} {config : MappingConfig}

theorem bindColumns_gatherer (place : RowPlace) (row : Row) (state : MappingState Gathered) :
    ((gatherer required).bindColumns place row state).1 ≠ .ok true := by
  simp only [Handler.bindColumns]
  split
  · simp
  · rename_i columns isData hbound
    simp only [gatherer, Handler.columnNames, bind, Except.bind] at hbound
    split at hbound
    · cases hbound
    · cases hbound
      simp

def gathered? : HookCall → Option GatheredRecord
  | .record main subs ctx => some ⟨ctx.source, ctx.line, main, subs⟩
  | .fileName _ | .header _ | .defaults _ _ _ => none

theorem records_hear (gathered : Gathered) (call : HookCall) :
    ((gatherer required).hear gathered call).records =
      gathered.records ++ (gathered? call).toList := by
  cases call <;> simp [Handler.hear, gatherer, Gathered.records, gathered?]

theorem records_foldl_hear (calls : List HookCall) (gathered : Gathered) :
    (calls.foldl (gatherer required).hear gathered).records =
      gathered.records ++ calls.filterMap gathered? := by
  induction calls generalizing gathered with
  | nil => simp
  | cons call calls ih =>
      rw [List.foldl_cons, ih, records_hear, List.append_assoc]
      cases h : gathered? call <;> simp [h]

def tellsDefaults : HookCall → Bool
  | .defaults _ _ _ => true
  | .fileName _ | .header _ | .record _ _ _ => false

theorem defaults_foldl_hear (calls : List HookCall) (gathered : Gathered) :
    (calls.foldl (gatherer required).hear gathered).defaults =
      gathered.defaults + calls.countP tellsDefaults := by
  induction calls generalizing gathered with
  | nil => rfl
  | cons call calls ih =>
      rw [List.foldl_cons, ih, List.countP_cons]
      cases call with
      | defaults category entry ctx => exact Nat.add_right_comm _ 1 _
      | fileName name => rfl
      | header row => rfl
      | record main subs ctx => rfl

def gatheredRow (required : List String) (config : MappingConfig) (row : Arrival Gathered) :
    GatheredRecord :=
  let parts := (gatherer required).settled config row
  ⟨row.place.source, row.place.line, parts.main, parts.subs⟩

theorem filterMap_gathered?_rowCall (rows : List (Arrival Gathered)) :
    (rows.map ((gatherer required).rowCall config)).filterMap gathered? =
      (rows.filter (!·.row.isDefault)).map (gatheredRow required config) := by
  induction rows with
  | nil => rfl
  | cons row rows ih =>
      rw [List.map_cons, List.filterMap_cons, List.filter_cons, ih]
      cases hmark : row.row.isDefault <;>
        simp [Handler.rowCall, hmark, gathered?, Handler.defaultsCall, gatheredRow, Arrival.context,
          Session.context]

theorem filterMap_gathered?_openingCalls (source : String) (rows : List PlacedRow) :
    (Handler.openingCalls source rows).filterMap gathered? = [] := by
  simp only [Handler.openingCalls]
  cases rows.head? <;> rfl

/-- Of a source that is read to its end a gatherer is handed each row after the header by itself,
all of which fit the columns, and it keeps the data rows. -/
theorem readSource_gathers {reading : ReadingConfig} {source : String} {options : SourceOptions}
    {feed : Feed} {state : MappingState Gathered} {summary : SourceSummary}
    (h : (((gatherer required).sink config).readSource reading source options feed state).outcome =
      .ok summary) :
    let read := ((gatherer required).sink config).readSource reading source options feed state
    let placed := placedRows source options.verbose
      (rowReads reading.limits (.ofFeed reading.limits feed))
    let arrivals := (gatherer required).arrivals config
      (readScript reading.limits source options feed) state
    arrivals.map Arrival.placed = placed.tail ∧ (∀ row ∈ arrivals, row.Fits config) ∧
      read.state.calls.toList = state.calls.toList ++
        (Handler.openingCalls source placed ++ arrivals.map ((gatherer required).rowCall config)) ∧
      read.state.handler.records = state.handler.records ++
        (arrivals.filter (!·.row.isDefault)).map (gatheredRow required config) := by
  intro read placed arrivals
  obtain ⟨deliveries, dropped, hrows, hdelivers, hend⟩ :=
    (gatherer required).script_delivers config reading.limits source options feed state
  obtain ⟨hran, htext, -⟩ := Handler.readSource_ok h
  obtain ⟨rfl, header, hplaced, hheader⟩ := hend hran htext
  rw [List.append_nil] at hrows
  have hcalls : read.state.calls.toList = state.calls.toList ++
      (Handler.openingCalls source placed ++
        arrivals.map ((gatherer required).rowCall config)) := by
    rw [show read.state = _ from Handler.readSource_state reading source options feed state,
      hdelivers.calls, Handler.offered_start_calls, List.append_assoc,
      Handler.map_deliveryCall (fun _ _ _ => rfl) hdelivers.kinded, ← hrows]
  refine ⟨?_, ?_, hcalls, ?_⟩
  · cases header with
    | some first => exact (congrArg List.tail hplaced).symm
    | none =>
        -- a first row is always taken as a header, so there is no row at all
        have hnone : placed = arrivals.map Arrival.placed := hplaced
        cases hp : placed with
        | nil => rw [← hnone, hp, List.tail_nil]
        | cons first rest =>
            have hfirst : first ∈ placed.head? := by simp [hp]
            exact absurd (hheader first hfirst) (bindColumns_gatherer _ _ _)
  · intro row hrow
    rw [show arrivals = _ from hrows] at hrow
    obtain ⟨delivery, hd, hrow⟩ := List.mem_flatMap.1 hrow
    exact (hdelivers.kinded delivery hd).fits row hrow
  · obtain ⟨calls, hheard, hown⟩ := (gatherer required).readSource_hears config reading source
      options feed state
    have hnew := List.append_cancel_left (hheard.symm.trans hcalls)
    rw [show read.state.handler = _ from hown, records_foldl_hear, hnew, List.filterMap_append,
      filterMap_gathered?_openingCalls, List.nil_append, filterMap_gathered?_rowCall]

theorem readSource_counts {reading : ReadingConfig} {source : String} {options : SourceOptions}
    {feed : Feed} {state : MappingState Gathered} {summary : SourceSummary}
    (h : (((gatherer required).sink config).readSource reading source options feed state).outcome =
      .ok summary) :
    let after := (((gatherer required).sink config).readSource reading source options feed state).state
    let rows := (placedRows source options.verbose
      (rowReads reading.limits (.ofFeed reading.limits feed))).tail
    after.handler.latest.length = state.handler.latest.length + rows.countP (!·.row.isDefault) ∧
      after.handler.defaults = state.handler.defaults + rows.countP (·.row.isDefault) := by
  intro after rows
  obtain ⟨hplaced, -, hcalls, hrecords⟩ := readSource_gathers h
  obtain ⟨calls, hheard, hown⟩ := (gatherer required).readSource_hears config reading source
    options feed state
  let arrivals := (gatherer required).arrivals config
    (readScript reading.limits source options feed) state
  have hrows : rows = arrivals.map Arrival.placed := hplaced.symm
  constructor
  · have hlength := congrArg List.length hrecords
    simp only [Gathered.records, List.length_append, List.length_reverse, List.length_map] at hlength
    rw [hrows, List.countP_map, show after.handler.latest.length = _ from hlength,
      ← List.countP_eq_length_filter]
    rfl
  · have hnew := List.append_cancel_left (hheard.symm.trans hcalls)
    have hopening : (Handler.openingCalls source (placedRows source options.verbose
        (rowReads reading.limits (.ofFeed reading.limits feed)))).countP tellsDefaults = 0 := by
      simp only [Handler.openingCalls]
      cases (placedRows source options.verbose _).head? <;> rfl
    have htold (row : Arrival Gathered) :
        tellsDefaults ((gatherer required).rowCall config row) = row.row.isDefault := by
      cases hmark : row.row.isDefault <;>
        simp [Handler.rowCall, hmark, Handler.defaultsCall, tellsDefaults]
    rw [hrows, List.countP_map, show after.handler = _ from hown, defaults_foldl_hear, hnew,
      List.countP_append, hopening, Nat.zero_add, List.countP_map]
    exact congrArg (state.handler.defaults + List.countP · arrivals) (funext htold)

end DefinitionFiles.Command
