import DefinitionFiles.Proofs.Columns.Header
import DefinitionFiles.Proofs.Defaults.Layers
import DefinitionFiles.Proofs.Mapping.Arrival

namespace DefinitionFiles

variable {η : Type} {handler : Handler η} {config : MappingConfig}

def MappingState.WellBound (state : MappingState η) : Prop :=
  ∀ columns, state.session.columns = some columns → columns.WellFormed

namespace Handler

/-- The row of a call, if it comes to columns as data. Where none are bound yet, a first row
may bind some and be data itself. -/
def arrival? (handler : Handler η) : SinkCall → MappingState η → Option (Arrival η)
  | .row row place, state =>
      match state.session.columns with
      | some _ => some ⟨row, place, state⟩
      | none =>
          match handler.bindColumns place row state with
          | (.ok true, bound) => some ⟨row, place, bound⟩
          | _ => none
  | .start _ _, _ | .finish _, _ => none

theorem state_of_arrival? {call : SinkCall} {state : MappingState η} {arrival : Arrival η}
    (h : handler.arrival? call state = some arrival) :
    arrival.state = state ∨ state.session.columns = none ∧
      arrival.state = (handler.bindColumns arrival.place arrival.row state).2 := by
  cases call with
  | start source options => cases h
  | finish place => cases h
  | row row place =>
      simp only [arrival?] at h
      split at h
      · cases h
        exact .inl rfl
      · rename_i hcolumns
        split at h
        · rename_i bound hbound
          cases h
          exact .inr ⟨hcolumns, by rw [hbound]⟩
        · cases h

/-- The rows that come to columns as data while calls are made, up to the first that fails. -/
def arrivals (handler : Handler η) (config : MappingConfig) :
    List SinkCall → MappingState η → List (Arrival η)
  | [], _ => []
  | call :: calls, state =>
      let step := (handler.sink config).perform call state
      (handler.arrival? call state).toList ++
        match step.1 with
        | .ok () => handler.arrivals config calls step.2
        | .error _ => []

theorem bindColumns_table (handler : Handler η) (place : RowPlace) (row : Row)
    (state : MappingState η) :
    (handler.bindColumns place row state).2.table = state.table := by
  simp only [bindColumns]
  split <;> rfl

theorem bindColumns_calls (handler : Handler η) (place : RowPlace) (row : Row)
    (state : MappingState η) :
    (handler.bindColumns place row state).2.calls = state.calls.push (.header row) := by
  simp only [bindColumns]
  split <;> rfl

theorem bindColumns_columns (handler : Handler η) (place : RowPlace) (row : Row)
    (state : MappingState η) (isData : Bool)
    (h : (handler.bindColumns place row state).1 = .ok isData) :
    ∃ columns, (handler.bindColumns place row state).2.session =
      { state.session with columns := some columns } := by
  simp only [bindColumns] at h ⊢
  split at h
  · simp at h
  · rename_i columns data _
    exact ⟨columns, rfl⟩

theorem bindColumns_session (handler : Handler η) (place : RowPlace) (row : Row)
    (state : MappingState η) :
    ∃ columns, (handler.bindColumns place row state).2.session = { state.session with columns } := by
  simp only [bindColumns]
  split
  · exact ⟨state.session.columns, rfl⟩
  · rename_i columns isData _
    exact ⟨some columns, rfl⟩

theorem arrival?_eq_some (config : MappingConfig) {call : SinkCall} {state : MappingState η}
    {arrival : Arrival η} (h : handler.arrival? call state = some arrival) :
    call = arrival.placed.call ∧ arrival.state.session.columns = some arrival.columns ∧
      arrival.state.table = state.table ∧
      (∃ columns, arrival.state.session = { state.session with columns }) ∧
      handler.takeRow config arrival.row arrival.place state =
        handler.takeBound config arrival.row arrival.place arrival.state := by
  cases call with
  | start source options => cases h
  | finish place => cases h
  | row row place =>
      simp only [arrival?] at h
      cases hc : state.session.columns with
      | some columns =>
          simp only [hc, Option.some.injEq] at h
          subst h
          refine ⟨rfl, ?_, rfl, ⟨state.session.columns, rfl⟩, ?_⟩
          · simp [Arrival.columns, hc]
          · simp [takeRow, hc]
      | none =>
          simp only [hc] at h
          split at h
          · rename_i bound hb
            cases h
            obtain ⟨columns, hs⟩ :=
              bindColumns_columns handler place row state true (congrArg Prod.fst hb)
            have ht := bindColumns_table handler place row state
            rw [hb] at hs ht
            simp only at hs ht
            simp [Arrival.placed, PlacedRow.call, Arrival.columns, takeRow, hc, hb, hs, ht]
          · cases h

theorem takes_of_arrival? (config : MappingConfig) {call : SinkCall} {state : MappingState η}
    {arrival : Arrival η} (h : handler.arrival? call state = some arrival) :
    handler.Takes config arrival ((handler.sink config).perform call state).1
      ((handler.sink config).perform call state).2 := by
  obtain ⟨rfl, hc, -, -, he⟩ := arrival?_eq_some config h
  have ht := takeBound_takes handler config hc
  simpa only [Sink.perform, sink, Arrival.placed, PlacedRow.call, he] using ht

theorem perform_row_of_arrival?_none {row : Row} {place : RowPlace} {state : MappingState η}
    (h : handler.arrival? (.row row place) state = none) :
    ((handler.sink config).perform (.row row place) state).2 =
      (handler.bindColumns place row state).2 := by
  simp only [arrival?] at h
  split at h
  · cases h
  · rename_i hc
    simp only [Sink.perform, sink, takeRow, hc]
    split at h
    · cases h
    · rename_i hn
      generalize handler.bindColumns place row state = bound at *
      obtain ⟨outcome, state'⟩ := bound
      cases outcome with
      | error error => rfl
      | ok isData =>
          cases isData with
          | false => rfl
          | true => exact absurd rfl (hn state')

theorem arrivals_append (calls more : List SinkCall) (state : MappingState η) :
    let ran := (handler.sink config).run calls state
    handler.arrivals config (calls ++ more) state = handler.arrivals config calls state ++
      match ran.1 with
      | .ok () => handler.arrivals config more ran.2
      | .error _ => [] := by
  induction calls generalizing state with
  | nil => rfl
  | cons call calls ih =>
      simp only [List.cons_append, arrivals, Sink.run, List.append_assoc]
      cases ((handler.sink config).perform call state).1 with
      | error error => simp
      | ok _ => simp only [ih]

theorem arrivals_split {calls : List SinkCall} {state : MappingState η}
    {before after : List (Arrival η)} {arrival : Arrival η}
    (h : handler.arrivals config calls state = before ++ arrival :: after) :
    ∃ earlier call later, calls = earlier ++ call :: later ∧
      handler.arrivals config earlier state = before ∧
        handler.arrival? call ((handler.sink config).run earlier state).2 = some arrival := by
  induction calls generalizing state before with
  | nil => simp [arrivals] at h
  | cons call calls ih =>
      -- either the first call brings the row, or it is brought by one of those after it
      have hlater : ∀ before', before = (handler.arrival? call state).toList ++ before' →
          (match ((handler.sink config).perform call state).1 with
            | .ok () => handler.arrivals config calls ((handler.sink config).perform call state).2
            | .error _ => []) = before' ++ arrival :: after →
          ∃ earlier call' later, call :: calls = earlier ++ call' :: later ∧
            handler.arrivals config earlier state = before ∧
              handler.arrival? call' ((handler.sink config).run earlier state).2 =
                some arrival := by
        intro before' hbefore htail
        cases ho : ((handler.sink config).perform call state).1 with
        | error error => simp [ho] at htail
        | ok _ =>
            simp only [ho] at htail
            obtain ⟨earlier, call', later, rfl, hearlier, hcall⟩ := ih htail
            refine ⟨call :: earlier, call', later, rfl, ?_, ?_⟩
            · simp only [arrivals, ho, hearlier, hbefore]
            · simpa only [Sink.run, ho] using hcall
      simp only [arrivals] at h
      cases ha : handler.arrival? call state with
      | none =>
          rw [ha] at h hlater
          exact hlater before rfl h
      | some first =>
          rw [ha] at h hlater
          cases before with
          | nil =>
              obtain ⟨rfl, -⟩ := List.cons.inj h
              exact ⟨[], call, calls, rfl, rfl, ha⟩
          | cons first' before =>
              obtain ⟨rfl, htail⟩ := List.cons.inj h
              exact hlater before rfl htail

theorem takeBound_row_ne_nil {row : Row} (h : row ≠ []) (place : RowPlace)
    (state : MappingState η) : (handler.takeBound config row place state).row ≠ [] := by
  obtain ⟨field, rest, rfl⟩ := List.exists_cons_of_ne_nil h
  simp only [takeBound]
  repeat' split
  all_goals simp [Row.withoutMark]

theorem sink_keepsRows (handler : Handler η) (config : MappingConfig) :
    (handler.sink config).KeepsRows := by
  intro row place state h
  simp only [sink, takeRow]
  repeat' split
  all_goals first | exact takeBound_row_ne_nil h _ _ | exact h

theorem readSource_state (reading : ReadingConfig) (source : String) (options : SourceOptions)
    (feed : Feed) (state : MappingState η) :
    ((handler.sink config).readSource reading source options feed state).state =
      ((handler.sink config).run (readScript reading.limits source options feed) state).2 :=
  ((handler.sink config).readToEnd_eq_run (sink_keepsRows handler config) reading source options
    feed state).1

theorem readSource_ok {reading : ReadingConfig} {source : String} {options : SourceOptions}
    {feed : Feed} {state : MappingState η} {summary : SourceSummary}
    (h : ((handler.sink config).readSource reading source options feed state).outcome =
      .ok summary) :
    let reads := rowReads reading.limits (.ofFeed reading.limits feed)
    ((handler.sink config).run (readScript reading.limits source options feed) state).1 = .ok () ∧
      textFailure? source reads = none ∧
      summary.rows = (placedRows source options.verbose reads).length := by
  intro reads
  obtain ⟨-, houtcome⟩ := (handler.sink config).readToEnd_eq_run (sink_keepsRows handler config)
    reading source options feed state
  rw [show ((handler.sink config).readToEnd reading source options feed state).1 = .ok summary
    from h] at houtcome
  split at houtcome
  · cases houtcome
  · cases houtcome
  · rename_i hran hfailure
    exact ⟨hran, hfailure, by rw [Except.ok.inj houtcome]⟩

theorem columns_of_arrivals {calls : List SinkCall} {state : MappingState η}
    {before after : List (Arrival η)} {arrival : Arrival η}
    (h : handler.arrivals config calls state = before ++ arrival :: after) :
    arrival.state.session.columns = some arrival.columns := by
  obtain ⟨earlier, call, later, -, -, ha⟩ := arrivals_split h
  exact (arrival?_eq_some config ha).2.1

theorem perform_session (handler : Handler η) (config : MappingConfig) {call : SinkCall}
    (hcall : ∀ source options, call ≠ .start source options) (state : MappingState η) :
    ∃ columns held, ((handler.sink config).perform call state).2.session =
      { state.session with columns, held } := by
  cases call with
  | start source options => exact absurd rfl (hcall source options)
  | finish place => exact ⟨state.session.columns, none, release_session handler config place state⟩
  | row row place =>
      cases ha : handler.arrival? (.row row place) state with
      | none =>
          obtain ⟨columns, hbound⟩ := bindColumns_session handler place row state
          exact ⟨columns, state.session.held, by rw [perform_row_of_arrival?_none ha, hbound]⟩
      | some arrival =>
          obtain ⟨-, -, -, ⟨columns, harrival⟩, -⟩ := arrival?_eq_some config ha
          have htakes := session_of_takes (takes_of_arrival? config ha)
          rw [harrival] at htakes
          exact ⟨columns, _, htakes⟩

theorem run_session (handler : Handler η) (config : MappingConfig) {calls : List SinkCall}
    (hcalls : ∀ call ∈ calls, ∀ source options, call ≠ .start source options)
    (state : MappingState η) :
    ∃ columns held, ((handler.sink config).run calls state).2.session =
      { state.session with columns, held } := by
  induction calls generalizing state with
  | nil => exact ⟨state.session.columns, state.session.held, rfl⟩
  | cons call calls ih =>
      obtain ⟨columns, held, hp⟩ := perform_session handler config (hcalls call (by simp)) state
      simp only [Sink.run]
      split
      · exact ⟨columns, held, hp⟩
      · obtain ⟨columns', held', hr⟩ := ih (fun call hc => hcalls call (by simp [hc]))
          ((handler.sink config).perform call state).2
        exact ⟨columns', held', by rw [hr, hp]⟩

theorem perform_columns (handler : Handler η) (config : MappingConfig) {call : SinkCall}
    (hcall : ∀ source options, call ≠ .start source options) {state : MappingState η}
    {columns : Columns} (h : state.session.columns = some columns) :
    ((handler.sink config).perform call state).2.session.columns = some columns := by
  cases call with
  | start source options => exact absurd rfl (hcall source options)
  | finish place =>
      simp only [Sink.perform, sink]
      rw [release_session, h]
  | row row place =>
      have ha : handler.arrival? (.row row place) state = some ⟨row, place, state⟩ := by
        simp [arrival?, h]
      rw [columns_of_takes (takes_of_arrival? config ha)]
      exact h

theorem run_columns (handler : Handler η) (config : MappingConfig) {calls : List SinkCall}
    (hcalls : ∀ call ∈ calls, ∀ source options, call ≠ .start source options)
    {state : MappingState η} {columns : Columns} (h : state.session.columns = some columns) :
    ((handler.sink config).run calls state).2.session.columns = some columns := by
  induction calls generalizing state with
  | nil => exact h
  | cons call calls ih =>
      have hp := perform_columns handler config (hcalls call (by simp)) h
      simp only [Sink.run]
      split
      · exact hp
      · exact ih (fun call hc => hcalls call (by simp [hc])) hp

theorem columns_of_mem_arrivals {calls : List SinkCall}
    (hcalls : ∀ call ∈ calls, ∀ source options, call ≠ .start source options)
    {state : MappingState η} {arrival : Arrival η}
    (h : arrival ∈ handler.arrivals config calls state) :
    ((handler.sink config).run calls state).2.session.columns = some arrival.columns := by
  induction calls generalizing state with
  | nil => cases h
  | cons call calls ih =>
      have hlater : ∀ call ∈ calls, ∀ source options, call ≠ .start source options :=
        fun call hc => hcalls call (by simp [hc])
      simp only [arrivals] at h
      simp only [Sink.run]
      rcases List.mem_append.1 h with h | h
      · have ha := Option.mem_toList.1 h
        have hstep : ((handler.sink config).perform call state).2.session.columns =
            some arrival.columns :=
          (columns_of_takes (takes_of_arrival? config ha)).trans (arrival?_eq_some config ha).2.1
        split
        · exact hstep
        · exact run_columns handler config hlater hstep
      · split at h <;> rename_i ho
        · rw [ho]
          exact ih hlater h
        · cases h

theorem start_fileDefaults (handler : Handler η) (source : String) (options : SourceOptions)
    (state : MappingState η) (name : String) :
    (handler.start source options state).session.fileDefaults.value name =
      (((handler.deviceName ((Path.fileName? source).getD source) state.handler).bind
        (·.values[name]?)).or (options.defaults.bind (·[name]?))).getD "" := by
  have hcaller : (options.defaults.getD ∅).value name =
      (options.defaults.bind (·[name]?)).getD "" := by
    rw [Record.value_eq]
    cases options.defaults <;> simp
  simp only [start, MappingState.call]
  cases handler.deviceName ((Path.fileName? source).getD source) state.handler with
  | none => exact hcaller
  | some device =>
      rw [Record.value_eq] at hcaller
      simp only [Record.value_eq, Record.getElem?_overlay, Option.bind_some, Option.getD_or]
      rw [hcaller]

theorem not_start_of_mem (source : String) (options : SourceOptions) (rows : List PlacedRow)
    (reads : List RowRead) :
    ∀ call ∈ rows.map PlacedRow.call ++ finishCalls source options reads,
      ∀ source options, call ≠ .start source options := by
  intro call hc other options' he
  subst he
  rcases List.mem_append.1 hc with hc | hc
  · obtain ⟨row, -, hrow⟩ := List.mem_map.1 hc
    cases hrow
  · simp only [finishCalls] at hc
    split at hc <;> simp at hc

theorem columns_of_script {limits : Limits} {source : String} {options : SourceOptions}
    {feed : Feed} {state : MappingState η} {arrival : Arrival η}
    (h : arrival ∈ handler.arrivals config (readScript limits source options feed) state) :
    ((handler.sink config).run (readScript limits source options feed) state).2.session.columns =
      some arrival.columns := by
  let reads := rowReads limits (.ofFeed limits feed)
  have hlater := not_start_of_mem source options (placedRows source options.verbose reads) reads
  have hstarted : arrival ∈ handler.arrivals config _ (handler.start source options state) := h
  exact columns_of_mem_arrivals hlater hstarted

theorem wellFormed_of_columnsFor {required names : List String} {columns : Columns}
    (h : columnsFor required names = .ok columns) : columns.WellFormed := by
  simp only [columnsFor] at h
  split at h
  · cases h
  · rename_i hcolumns
    split at h
    · cases h
    · cases h
      exact Columns.wellFormed_of_ofHeader hcolumns

theorem bindColumns_wellBound {place : RowPlace} {row : Row} {state : MappingState η}
    (h : state.WellBound) : (handler.bindColumns place row state).2.WellBound := by
  simp only [bindColumns]
  split
  · exact h
  · rename_i columns isData hbound
    rintro _ ⟨⟩
    simp only [bind, Except.bind] at hbound
    split at hbound
    · cases hbound
    · split at hbound
      · cases hbound
      · split at hbound
        · cases hbound
        · rename_i hfor
          cases hbound
          exact wellFormed_of_columnsFor hfor

theorem start_wellBound (source : String) (options : SourceOptions) (state : MappingState η) :
    (handler.start source options state).WellBound := by
  intro columns hcolumns
  simp only [start] at hcolumns
  split at hcolumns <;> cases hcolumns

theorem perform_wellBound (handler : Handler η) (config : MappingConfig) (call : SinkCall)
    {state : MappingState η} (h : state.WellBound) :
    ((handler.sink config).perform call state).2.WellBound := by
  cases call with
  | start source options => exact start_wellBound source options state
  | finish place =>
      intro columns hcolumns
      simp only [Sink.perform, sink] at hcolumns
      rw [release_session] at hcolumns
      exact h columns hcolumns
  | row row place =>
      cases ha : handler.arrival? (.row row place) state with
      | none =>
          rw [perform_row_of_arrival?_none ha]
          exact bindColumns_wellBound h
      | some arrival =>
          have hmet : arrival.state.WellBound := by
            rcases state_of_arrival? ha with hs | ⟨-, hs⟩ <;> rw [hs]
            · exact h
            · exact bindColumns_wellBound h
          intro columns hcolumns
          rw [columns_of_takes (takes_of_arrival? config ha)] at hcolumns
          exact hmet columns hcolumns

theorem run_wellBound (handler : Handler η) (config : MappingConfig) (calls : List SinkCall)
    {state : MappingState η} (h : state.WellBound) :
    ((handler.sink config).run calls state).2.WellBound :=
  Sink.run_keeps (fun call _ => perform_wellBound handler config call) calls h

theorem wellFormed_of_script {limits : Limits} {source : String} {options : SourceOptions}
    {feed : Feed} {state : MappingState η} {arrival : Arrival η}
    (h : arrival ∈ handler.arrivals config (readScript limits source options feed) state) :
    arrival.columns.WellFormed := by
  let reads := rowReads limits (.ofFeed limits feed)
  let rows := (placedRows source options.verbose reads).map PlacedRow.call
  have hbound : ((handler.sink config).run (readScript limits source options feed) state).2.WellBound :=
    run_wellBound handler config (rows ++ finishCalls source options reads)
      (start_wellBound source options state)
  exact hbound _ (columns_of_script h)

theorem session_of_script {limits : Limits} {source : String} {options : SourceOptions}
    {feed : Feed} {state : MappingState η} {arrival : Arrival η}
    (h : arrival ∈ handler.arrivals config (readScript limits source options feed) state) :
    ∃ columns held, arrival.state.session =
      { (handler.start source options state).session with columns, held } := by
  let reads := rowReads limits (.ofFeed limits feed)
  let rows := (placedRows source options.verbose reads).map PlacedRow.call
  let finish := finishCalls source options reads
  have hcalls : ∀ call ∈ rows ++ finish, ∀ source options, call ≠ .start source options :=
    not_start_of_mem source options _ reads
  obtain ⟨before, after, hsplit⟩ := List.append_of_mem h
  have harrivals : handler.arrivals config (rows ++ finish) (handler.start source options state) =
      before ++ arrival :: after := hsplit
  obtain ⟨earlier, call, later, hsplit, -, ha⟩ := arrivals_split harrivals
  have hearlier : ∀ call ∈ earlier, ∀ source options, call ≠ .start source options := by
    intro call hc
    refine hcalls call ?_
    rw [hsplit]
    exact List.mem_append_left _ hc
  obtain ⟨_, held, hran⟩ :=
    run_session handler config hearlier (handler.start source options state)
  obtain ⟨-, -, -, ⟨columns, harrival⟩, -⟩ := arrival?_eq_some config ha
  exact ⟨columns, held, by rw [harrival, hran]⟩

theorem fileDefaults_of_script {limits : Limits} {source : String} {options : SourceOptions}
    {feed : Feed} {state : MappingState η} {before after : List (Arrival η)} {arrival : Arrival η}
    (h : handler.arrivals config (readScript limits source options feed) state =
      before ++ arrival :: after) :
    arrival.state.session.fileDefaults =
      (handler.start source options state).session.fileDefaults := by
  have hmem : arrival ∈ handler.arrivals config (readScript limits source options feed) state := by
    simp [h]
  obtain ⟨columns, held, hsession⟩ := session_of_script hmem
  rw [hsession]

end Handler

end DefinitionFiles
