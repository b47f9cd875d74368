import DefinitionFiles.Proofs.Mapping.Registry

namespace DefinitionFiles

variable {η : Type} {handler : Handler η} {config : MappingConfig}

/-- What the handler is handed at one go: a primary row with the continuation rows that follow
it, or a default row. -/
inductive Delivery (η : Type)
  | record (primary : Arrival η) (continuations : List (Arrival η))
  | defaults (row : Arrival η)

namespace Delivery

def rows : Delivery η → List (Arrival η)
  | .record primary continuations => primary :: continuations
  | .defaults row => [row]

def Kinded (handler : Handler η) (config : MappingConfig) : Delivery η → Prop
  | .record primary continuations =>
      (handler.kind config primary = .primary ∧ primary.Fits config) ∧
        ∀ row ∈ continuations, handler.kind config row = .continuation ∧ row.Fits config
  | .defaults row => handler.kind config row = .default ∧ row.Fits config

theorem Kinded.fits {delivery : Delivery η} (h : delivery.Kinded handler config) :
    ∀ row ∈ delivery.rows, row.Fits config := by
  cases delivery with
  | defaults row => exact List.forall_mem_singleton.2 h.2
  | record primary continuations =>
      exact List.forall_mem_cons.2 ⟨h.1.2, fun row hrow => (h.2 row hrow).2⟩

theorem rows_split {delivery : Delivery η} {deliveries : List (Delivery η)}
    (h : delivery ∈ deliveries) (dropped : List (Arrival η)) :
    ∃ before after, deliveries.flatMap rows ++ dropped = before ++ (delivery.rows ++ after) := by
  obtain ⟨sooner, later, rfl⟩ := List.append_of_mem h
  exact ⟨sooner.flatMap rows, later.flatMap rows ++ dropped, by simp⟩

end Delivery

namespace Handler

def keys (handler : Handler η) (config : MappingConfig) (primary : Arrival η) : List String :=
  handler.categories ((primary.parts config).main.fill primary.context.fileDefaults) primary.context
    (handler.released config primary).2.handler

/-- The records of a primary row once the defaults are filled in that it finds. -/
def settled (handler : Handler η) (config : MappingConfig) (primary : Arrival η) : RecordParts :=
  let parts := primary.parts config
  if config.fillsDefaults then
    let main := parts.main.fill primary.context.fileDefaults
    match primary.state.table.first? (handler.keys config primary) with
    | none => ⟨main, parts.subs⟩
    | some entry => ⟨main.fill entry.base, Defaults.fillSubs entry.subs parts.subs⟩
  else parts

def deliveryCall (handler : Handler η) (config : MappingConfig) : Delivery η → HookCall
  | .record primary continuations =>
      .record (handler.settled config primary).main
        ((handler.settled config primary).subs ++ continuations.flatMap (·.joining config))
        primary.context
  | .defaults row => handler.defaultsCall config row

theorem filled_append (ctx : RecordContext) (state : MappingState η) (parts : RecordParts)
    (more : List Record) (line : Nat) :
    (handler.filled ctx state ⟨parts.main, parts.subs ++ more, parts.subs.length, line⟩).2 =
      let main := parts.main.fill state.session.fileDefaults
      match state.table.first? (handler.categories main ctx state.handler) with
      | none => (main, parts.subs ++ more)
      | some entry => (main.fill entry.base, Defaults.fillSubs entry.subs parts.subs ++ more) := by
  simp only [filled]
  split <;> simp_all [Defaults.fill]

theorem filled_calls (ctx : RecordContext) (state : MappingState η) (held : HeldRow) :
    (handler.filled ctx state held).1.calls = state.calls := by
  simp only [filled]
  split <;> rfl

def handed (handler : Handler η) (config : MappingConfig) (ctx : RecordContext)
    (state : MappingState η) (held : HeldRow) : MappingState η × Record × List Record :=
  if config.fillsDefaults then handler.filled ctx state held else (state, held.main, held.subs)

theorem handed_calls (ctx : RecordContext) (state : MappingState η) (held : HeldRow) :
    (handler.handed config ctx state held).1.calls = state.calls := by
  simp only [handed]
  split
  · exact filled_calls ctx state held
  · rfl

def handOn (handler : Handler η) (place : RowPlace) (ctx : RecordContext)
    (handed : MappingState η × Record × List Record) : SessionStep η Unit :=
  let took := handler.takeRecord handed.2.1 handed.2.2 ctx handed.1.handler
  (took.1.mapError place.refuse,
    (handed.1.call (.record handed.2.1 handed.2.2 ctx)).withHandler took.2)

theorem release_of_held (handler : Handler η) (config : MappingConfig) {state : MappingState η}
    {held : HeldRow} {columns : Columns} (hheld : state.session.held = some held)
    (hcolumns : state.session.columns = some columns) (place : RowPlace) :
    handler.release config place state =
      let place : RowPlace := { place with line := held.line }
      let ctx := (state.hold none).session.context columns place
      handler.handOn place ctx (handler.handed config ctx (state.hold none) held) := by
  have hcolumns' : (state.hold none).session.columns = some columns := hcolumns
  simp only [release, hheld, hcolumns']
  rfl

theorem release_of_unbound (handler : Handler η) (config : MappingConfig) {state : MappingState η}
    (hcolumns : state.session.columns = none) (place : RowPlace) :
    handler.release config place state = (.ok (), state.hold none) := by
  have hcolumns' : (state.hold none).session.columns = none := hcolumns
  cases hheld : state.session.held with
  | none =>
      simp only [release, hheld]
      rw [MappingState.hold, ← hheld]
  | some held => simp only [release, hheld, hcolumns']

theorem release_cases (handler : Handler η) (config : MappingConfig) (place : RowPlace)
    (state : MappingState η) :
    handler.release config place state = (.ok (), state.hold none) ∨
      ∃ held columns, state.session.held = some held ∧ state.session.columns = some columns ∧
        handler.release config place state =
          let place : RowPlace := { place with line := held.line }
          let ctx := (state.hold none).session.context columns place
          handler.handOn place ctx (handler.handed config ctx (state.hold none) held) := by
  cases hcolumns : state.session.columns with
  | none => exact .inl (release_of_unbound handler config hcolumns place)
  | some columns =>
      cases hheld : state.session.held with
      | none =>
          refine .inl ?_
          rw [release_of_none handler config hheld, MappingState.hold, ← hheld]
      | some held =>
          exact .inr ⟨held, columns, rfl, rfl, release_of_held handler config hheld hcolumns place⟩

def enter (handler : Handler η) (place : RowPlace) (ctx : RecordContext) (category : String)
    (stated : Defaults) (state : MappingState η) : SessionStep η Unit :=
  let entry := state.table.merged category stated
  let event := LogEvent.registered place.source place.line category entry.base.size
  let entered := { state with table := state.table.merge category stated }.report event
  let took := handler.takeDefaults category entry ctx state.handler
  (took.1.mapError place.refuse,
    (entered.call (.defaults category entry ctx)).withHandler took.2)

theorem takeDefaultRow_of_assign (handler : Handler η) {config : MappingConfig}
    {state : MappingState η} {row : Row} {columns : Columns} {parts : RecordParts}
    (h : state.session.assign config row = .ok (columns, parts)) (place : RowPlace) :
    handler.takeDefaultRow config place row state =
      let ctx := state.session.context columns place
      let main := parts.main.fill state.session.fileDefaults
      handler.enter place ctx (handler.category main ctx state.handler)
        (.stated parts.main parts.subs) state := by
  simp only [takeDefaultRow, h]
  rfl

theorem release_heldRow {place : RowPlace} {primary : Arrival η}
    (hcolumns : primary.state.session.columns = some primary.columns)
    (hsource : primary.place.source = place.source) (hverbose : primary.place.verbose = place.verbose)
    (continuations : List (Arrival η)) :
    let state := (handler.released config primary).2.hold
      (some (heldRow config primary continuations))
    (handler.release config place state).2.calls =
      state.calls.push (handler.deliveryCall config (.record primary continuations)) := by
  intro state
  have hsession : (handler.released config primary).2.session =
      { primary.state.session with held := none } := handler.release_session config _ _
  have htable : (handler.released config primary).2.table = primary.state.table :=
    released_table primary
  have hctx : (state.hold none).session.context primary.columns
      { place with line := primary.place.line } = primary.context := by
    simp [state, MappingState.hold, hsession, Session.context, Arrival.context, hsource, hverbose]
  have hheld : state.session.held = some (heldRow config primary continuations) := rfl
  have hbound : (state.hold none).session.columns = some primary.columns := by
    simp [state, MappingState.hold, hsession, hcolumns]
  have hfile : (state.hold none).session.fileDefaults = primary.context.fileDefaults := by
    simp [state, MappingState.hold, hsession, Arrival.context, Session.context]
  have hown : (state.hold none).table = primary.state.table := htable
  have hhandler : (state.hold none).handler = (handler.released config primary).2.handler := rfl
  simp only [release, hheld, hbound, heldRow, hctx, deliveryCall, settled, keys]
  cases hf : config.fillsDefaults with
  | false => simp [MappingState.call, MappingState.withHandler, MappingState.hold]
  | true =>
      simp only [if_true, MappingState.call, MappingState.withHandler, filled_calls, filled_append,
        hfile, hown, hhandler]
      cases primary.state.table.first? (handler.categories _ primary.context _) <;> rfl

/-- What is handed on between two states is these deliveries, in order. -/
structure Delivers (handler : Handler η) (config : MappingConfig) (deliveries : List (Delivery η))
    (before after : MappingState η) : Prop where
  kinded : ∀ delivery ∈ deliveries, delivery.Kinded handler config
  calls : after.calls.toList =
    before.calls.toList ++ deliveries.map (handler.deliveryCall config)

namespace Delivers

variable {first second third : MappingState η} {deliveries more : List (Delivery η)}

theorem nil (h : second.calls = first.calls) : handler.Delivers config [] first second :=
  ⟨by simp, by simp [h]⟩

theorem singleton {delivery : Delivery η} (hkinded : delivery.Kinded handler config)
    (h : second.calls = first.calls.push (handler.deliveryCall config delivery)) :
    handler.Delivers config [delivery] first second :=
  ⟨by simpa using hkinded, by simp [h]⟩

theorem trans (h : handler.Delivers config deliveries first second)
    (h' : handler.Delivers config more second third) :
    handler.Delivers config (deliveries ++ more) first third := by
  refine ⟨?_, ?_⟩
  · intro delivery hd
    rcases List.mem_append.1 hd with hd | hd
    · exact h.kinded delivery hd
    · exact h'.kinded delivery hd
  · rw [h'.calls, h.calls, List.map_append, List.append_assoc]

end Delivers

/-- The rows that are held back in a state: a primary row and the continuation rows after it. -/
inductive Holds (handler : Handler η) (config : MappingConfig) (source : String) (verbose : Bool) :
    List (Arrival η) → MappingState η → Prop
  | nothing (state : MappingState η) (h : state.session.held = none) :
      Holds handler config source verbose [] state
  | block (primary : Arrival η) (continuations : List (Arrival η)) (state : MappingState η)
      (hkinded : (Delivery.record primary continuations).Kinded handler config)
      (hcolumns : primary.state.session.columns = some primary.columns)
      (hsource : primary.place.source = source) (hverbose : primary.place.verbose = verbose)
      (hstate : state = (handler.released config primary).2.hold
        (some (heldRow config primary continuations))) :
      Holds handler config source verbose (primary :: continuations) state

theorem Holds.release {source : String} {verbose : Bool} {rows : List (Arrival η)}
    {state : MappingState η} (h : handler.Holds config source verbose rows state)
    (place : RowPlace) (hsource : place.source = source) (hverbose : place.verbose = verbose) :
    ∃ deliveries, rows = deliveries.flatMap Delivery.rows ∧
      handler.Delivers config deliveries state (handler.release config place state).2 := by
  subst hsource hverbose
  cases h with
  | nothing _ h =>
      refine ⟨[], rfl, .nil ?_⟩
      rw [release_of_none handler config h]
  | block primary continuations _ hkinded hcolumns hsource hverbose hstate =>
      refine ⟨[.record primary continuations], by simp [Delivery.rows], .singleton hkinded ?_⟩
      rw [hstate]
      exact release_heldRow hcolumns hsource hverbose continuations

theorem Holds.takes {rows : List (Arrival η)} {arrival : Arrival η}
    {outcome : Except ReadFailure Unit} {after : MappingState η}
    (hholds : handler.Holds config arrival.place.source arrival.place.verbose rows arrival.state)
    (hcolumns : arrival.state.session.columns = some arrival.columns)
    (h : handler.Takes config arrival outcome after) :
    ∃ deliveries rest, rows ++ [arrival] = deliveries.flatMap Delivery.rows ++ rest ∧
      handler.Delivers config deliveries arrival.state after ∧
        (outcome = .ok () →
          handler.Holds config arrival.place.source arrival.place.verbose rest after) := by
  obtain ⟨deliveries, hrows, hreleased⟩ := hholds.release arrival.place rfl rfl
  cases h with
  | refused error _ => exact ⟨[], rows ++ [arrival], rfl, .nil rfl, by simp⟩
  | unreleased error _ _ => exact ⟨deliveries, [arrival], by rw [hrows], hreleased, by simp⟩
  | joined held hkind hfits hheld =>
      refine ⟨[], rows ++ [arrival], rfl, .nil rfl, fun _ => ?_⟩
      cases hholds with
      | nothing _ h => simp [h] at hheld
      | block primary continuations _ hkinded hbound hsource hverbose hstate =>
          obtain rfl : heldRow config primary continuations = held := by
            simpa [hstate, MappingState.hold] using hheld
          refine .block primary (continuations ++ [arrival]) _ ⟨hkinded.1, ?_⟩ hbound hsource
            hverbose ?_
          · intro row hr
            rcases List.mem_append.1 hr with hr | hr
            · exact hkinded.2 row hr
            · rw [List.mem_singleton.1 hr]
              exact ⟨hkind, hfits⟩
          · rw [hstate]
            simp [MappingState.hold, heldRow]
  | replaced hkind hfits _ =>
      exact ⟨deliveries, [arrival], by rw [hrows], ⟨hreleased.kinded, hreleased.calls⟩,
        fun _ => .block arrival [] _ ⟨⟨hkind, hfits⟩, by simp⟩ hcolumns rfl rfl rfl⟩
  | registered _ hkind _ hfits =>
      have hd : handler.Delivers config [.defaults arrival] (handler.released config arrival).2
          (handler.registered config arrival) := .singleton ⟨hkind, hfits⟩ rfl
      refine ⟨deliveries ++ [.defaults arrival], [], ?_, hreleased.trans hd, fun _ => ?_⟩
      · simp [hrows, Delivery.rows]
      · refine .nothing _ ?_
        have hs := handler.release_session config arrival.place arrival.state
        exact congrArg Session.held hs

theorem Holds.run {source : String} {verbose : Bool} {held : List (Arrival η)}
    {state : MappingState η} {rows : List PlacedRow}
    (hholds : handler.Holds config source verbose held state)
    (hcolumns : state.session.columns.isSome = true)
    (hplaces : ∀ row ∈ rows, row.place.source = source ∧ row.place.verbose = verbose) :
    let calls := rows.map PlacedRow.call
    let ran := (handler.sink config).run calls state
    let arrivals := handler.arrivals config calls state
    ∃ deliveries rest, held ++ arrivals = deliveries.flatMap Delivery.rows ++ rest ∧
      handler.Delivers config deliveries state ran.2 ∧
        (ran.1 = .ok () → arrivals.map Arrival.placed = rows ∧
          handler.Holds config source verbose rest ran.2) := by
  induction rows generalizing held state with
  | nil => exact ⟨[], held, by simp [arrivals], .nil rfl, fun _ => ⟨rfl, hholds⟩⟩
  | cons row rows ih =>
      obtain ⟨columns, hc⟩ := Option.isSome_iff_exists.1 hcolumns
      let arrival : Arrival η := ⟨row.row, row.place, state⟩
      have harrival : handler.arrival? row.call state = some arrival := by
        simp [PlacedRow.call, arrival?, hc, arrival]
      have hbound : arrival.state.session.columns = some arrival.columns :=
        (arrival?_eq_some config harrival).2.1
      obtain ⟨rfl, rfl⟩ := hplaces row (by simp)
      have htakes := takes_of_arrival? config harrival
      obtain ⟨deliveries, rest, hrows, hdelivers, hrest⟩ := hholds.takes hbound htakes
      have hafter := columns_of_takes htakes
      simp only [List.map_cons, Sink.run, arrivals, harrival]
      generalize (handler.sink config).perform row.call state = step at *
      obtain ⟨outcome, after⟩ := step
      cases outcome with
      | error error => exact ⟨deliveries, rest, hrows, hdelivers, by simp⟩
      | ok _ =>
          obtain ⟨more, rest', hrows', hdelivers', hrest'⟩ := ih (hrest rfl)
            (by rw [hafter]; exact hcolumns) (fun row hr => hplaces row (by simp [hr]))
          refine ⟨deliveries ++ more, rest', ?_, hdelivers.trans hdelivers', ?_⟩
          · calc held ++ arrival :: handler.arrivals config (rows.map PlacedRow.call) after
                = held ++ [arrival] ++ handler.arrivals config (rows.map PlacedRow.call) after := by
                    simp
              _ = deliveries.flatMap Delivery.rows ++ (more.flatMap Delivery.rows ++ rest') := by
                    rw [hrows, List.append_assoc, hrows']
              _ = (deliveries ++ more).flatMap Delivery.rows ++ rest' := by
                    rw [List.flatMap_append, List.append_assoc]
          · intro hok
            obtain ⟨hplaced, hholds'⟩ := hrest' hok
            exact ⟨by simp [hplaced, Arrival.placed, arrival], hholds'⟩

def offered (handler : Handler η) (rows : List PlacedRow) (state : MappingState η) :
    MappingState η :=
  match rows with
  | [] => state
  | first :: _ => (handler.bindColumns first.place first.row state).2

theorem run_first (config : MappingConfig) {state : MappingState η}
    (hcolumns : state.session.columns = none) (first : PlacedRow) (rows : List PlacedRow) :
    let bound := handler.bindColumns first.place first.row state
    let run (calls : List SinkCall) (state : MappingState η) :=
      ((handler.sink config).run calls state, handler.arrivals config calls state)
    run ((first :: rows).map PlacedRow.call) state =
      match bound.1 with
      | .error error => ((.error error, bound.2), [])
      | .ok isData => run ((if isData then first :: rows else rows).map PlacedRow.call) bound.2 := by
  have hbound := bindColumns_columns handler first.place first.row state
  simp only [List.map_cons, Sink.run, Sink.perform, arrivals, arrival?, PlacedRow.call, sink,
    takeRow, hcolumns]
  generalize handler.bindColumns first.place first.row state = bound at *
  obtain ⟨outcome, after⟩ := bound
  cases outcome with
  | error error => rfl
  | ok isData =>
      obtain ⟨columns, hs⟩ := hbound isData rfl
      cases isData with
      | false => rfl
      | true =>
          have hc : after.session.columns = some columns := congrArg Session.columns hs
          simp [Sink.run, Sink.perform, arrivals, arrival?, PlacedRow.call, sink, takeRow, hc]

theorem rows_deliver (handler : Handler η) (config : MappingConfig) {source : String}
    {verbose : Bool} {state : MappingState η} {rows : List PlacedRow}
    (hcolumns : state.session.columns = none) (hheld : state.session.held = none)
    (hplaces : ∀ row ∈ rows, row.place.source = source ∧ row.place.verbose = verbose) :
    let calls := rows.map PlacedRow.call
    let ran := (handler.sink config).run calls state
    let arrivals := handler.arrivals config calls state
    ∃ deliveries rest, arrivals = deliveries.flatMap Delivery.rows ++ rest ∧
      handler.Delivers config deliveries (handler.offered rows state) ran.2 ∧
        (ran.1 = .ok () → handler.Holds config source verbose rest ran.2 ∧
          ∃ header : Option PlacedRow, rows = header.toList ++ arrivals.map Arrival.placed ∧
            ∀ first ∈ rows.head?,
              (handler.bindColumns first.place first.row state).1 = .ok header.isNone) := by
  cases rows with
  | nil => exact ⟨[], [], rfl, .nil rfl, fun _ => ⟨.nothing _ hheld, none, rfl, by simp⟩⟩
  | cons first rows =>
      have hrun := handler.run_first config hcolumns first rows
      have hbound := bindColumns_columns handler first.place first.row state
      simp only [offered, List.head?_cons, Option.mem_some_iff, forall_eq'] at hrun ⊢
      generalize handler.bindColumns first.place first.row state = bound at *
      obtain ⟨outcome, after⟩ := bound
      cases outcome with
      | error error =>
          obtain ⟨hr, ha⟩ := Prod.mk.inj hrun
          rw [hr, ha]
          exact ⟨[], [], rfl, .nil rfl, fun h => by simp at h⟩
      | ok isData =>
          obtain ⟨hr, ha⟩ := Prod.mk.inj hrun
          obtain ⟨columns, hs⟩ := hbound isData rfl
          have hnone : handler.Holds config source verbose [] after :=
            .nothing _ ((congrArg Session.held hs).trans hheld)
          have hsome : after.session.columns.isSome = true :=
            congrArg (fun session => session.columns.isSome) hs
          have hdata : ∀ row ∈ if isData then first :: rows else rows, row ∈ first :: rows := by
            cases isData with
            | false => exact fun row h => List.mem_cons_of_mem first h
            | true => exact fun row h => h
          obtain ⟨deliveries, rest, hrows, hdelivers, hrest⟩ :=
            hnone.run hsome (fun row h => hplaces row (hdata row h))
          rw [hr, ha]
          refine ⟨deliveries, rest, hrows, hdelivers, fun hok => ?_⟩
          obtain ⟨hplaced, hholds⟩ := hrest hok
          refine ⟨hholds, if isData then none else some first, ?_, ?_⟩
          · rw [hplaced]
            cases isData <;> rfl
          · cases isData <;> rfl

/-- Reading a source hands on its rows in order, whether it is read to its end or not; at the end
all of them have been handed on. -/
theorem script_delivers (handler : Handler η) (config : MappingConfig) (limits : Limits)
    (source : String) (options : SourceOptions) (feed : Feed) (state : MappingState η) :
    let reads := rowReads limits (.ofFeed limits feed)
    let placed := placedRows source options.verbose reads
    let calls := readScript limits source options feed
    let started := handler.start source options state
    let ran := (handler.sink config).run calls state
    let arrivals := handler.arrivals config calls state
    ∃ deliveries dropped, arrivals = deliveries.flatMap Delivery.rows ++ dropped ∧
      handler.Delivers config deliveries (handler.offered placed started) ran.2 ∧
        (ran.1 = .ok () → textFailure? source reads = none → dropped = [] ∧
          ∃ header : Option PlacedRow, placed = header.toList ++ arrivals.map Arrival.placed ∧
            ∀ first ∈ placed.head?,
              (handler.bindColumns first.place first.row started).1 = .ok header.isNone) := by
  intro reads placed calls started
  have hstarted : started.session.columns = none ∧ started.session.held = none := by
    simp only [started, start]
    split <;> exact ⟨rfl, rfl⟩
  obtain ⟨deliveries, rest, hrows, hdelivers, hrest⟩ := rows_deliver handler config hstarted.1
    hstarted.2 (placedRows_place source options.verbose reads)
  let later := placed.map PlacedRow.call ++ finishCalls source options reads
  have hran : (handler.sink config).run calls state = (handler.sink config).run later started := rfl
  have harrivals : handler.arrivals config calls state = handler.arrivals config later started := rfl
  rw [hran, harrivals, Sink.run_append, arrivals_append]
  simp only [finishCalls, placed]
  generalize (handler.sink config).run (List.map PlacedRow.call _) started = ran at *
  obtain ⟨outcome, final⟩ := ran
  cases outcome with
  | error error => exact ⟨deliveries, rest, by simpa using hrows, hdelivers, by simp⟩
  | ok _ =>
      obtain ⟨hholds, hheader⟩ := hrest rfl
      cases textFailure? source reads with
      | some failure => exact ⟨deliveries, rest, by simpa [arrivals] using hrows, hdelivers, by simp⟩
      | none =>
          let place : RowPlace := ⟨source, (endOfReads reads).line, options.verbose⟩
          obtain ⟨more, hmore, hreleased⟩ := hholds.release place rfl rfl
          have hfinish : ((handler.sink config).run [.finish place] final).2 =
              (handler.release config place final).2 := by
            simp only [Sink.run, Sink.perform, sink]
            split <;> rfl
          have hnone : handler.arrivals config [.finish place] final = [] := by
            simp only [arrivals, arrival?]
            split <;> rfl
          simp only [place] at hfinish hnone hreleased
          simp only [hnone, List.append_nil, hfinish]
          refine ⟨deliveries ++ more, [], ?_, hdelivers.trans hreleased, fun _ _ => ⟨rfl, hheader⟩⟩
          rw [hrows, hmore, List.flatMap_append, List.append_nil]

def openingCalls (source : String) (rows : List PlacedRow) : List HookCall :=
  .fileName ((Path.fileName? source).getD source) ::
    (rows.head?.map (fun first => .header first.row)).toList

theorem offered_start_calls (handler : Handler η) (source : String) (options : SourceOptions)
    (rows : List PlacedRow) (state : MappingState η) :
    (handler.offered rows (handler.start source options state)).calls.toList =
      state.calls.toList ++ openingCalls source rows := by
  have hstart : (handler.start source options state).calls.toList =
      state.calls.toList ++ [.fileName ((Path.fileName? source).getD source)] := by
    simp only [start]
    split <;> simp [MappingState.call, MappingState.report]
  cases rows with
  | nil => exact hstart
  | cons first rows =>
      simp [offered, bindColumns_calls, hstart, openingCalls]

theorem readSource_records (handler : Handler η) (config : MappingConfig) (reading : ReadingConfig)
    (source : String) (options : SourceOptions) (feed : Feed) (state : MappingState η) :
    let read := (handler.sink config).readSource reading source options feed state
    let arrivals := handler.arrivals config (readScript reading.limits source options feed) state
    ∃ calls, read.state.calls.toList = state.calls.toList ++ calls ∧
      ∀ main subs ctx, .record main subs ctx ∈ calls →
        ∃ before primary continuations after,
          arrivals = before ++ primary :: (continuations ++ after) ∧
          (Delivery.record primary continuations).Kinded handler config ∧
          main = (handler.settled config primary).main ∧
          subs = (handler.settled config primary).subs ++
            continuations.flatMap (·.joining config) ∧
          ctx = primary.context := by
  intro read arrivals
  obtain ⟨deliveries, dropped, hrows, hdelivers, -⟩ :=
    script_delivers handler config reading.limits source options feed state
  have hcalls : read.state.calls = _ := congrArg MappingState.calls
    (readSource_state reading source options feed state)
  let rows := placedRows source options.verbose
    (rowReads reading.limits (.ofFeed reading.limits feed))
  refine ⟨openingCalls source rows ++ deliveries.map (handler.deliveryCall config), ?_, ?_⟩
  · rw [hcalls, hdelivers.calls, offered_start_calls, List.append_assoc]
  · intro main subs ctx hcall
    have hdelivery : HookCall.record main subs ctx ∈
        deliveries.map (handler.deliveryCall config) := by
      simpa [openingCalls] using hcall
    obtain ⟨delivery, hd, hrecord⟩ := List.mem_map.1 hdelivery
    cases delivery with
    | defaults row => cases hrecord
    | record primary continuations =>
        obtain ⟨rfl, rfl, rfl⟩ := HookCall.record.inj hrecord
        obtain ⟨before, after, hsplit⟩ := Delivery.rows_split hd dropped
        exact ⟨before, primary, continuations, after, hrows.trans hsplit, hdelivers.kinded _ hd,
          rfl, rfl, rfl⟩

def rowCall (handler : Handler η) (config : MappingConfig) (row : Arrival η) : HookCall :=
  if row.row.isDefault then handler.defaultsCall config row
  else .record (handler.settled config row).main (handler.settled config row).subs row.context

section

variable (hcontinues : ∀ main ctx own, handler.continues main ctx own = false)

include hcontinues

theorem kind_ne_continuation (row : Arrival η) : handler.kind config row ≠ .continuation := by
  simp only [kind, hcontinues]
  split <;> simp

theorem map_deliveryCall {deliveries : List (Delivery η)}
    (hkinded : ∀ delivery ∈ deliveries, delivery.Kinded handler config) :
    deliveries.map (handler.deliveryCall config) =
      (deliveries.flatMap Delivery.rows).map (handler.rowCall config) := by
  induction deliveries with
  | nil => rfl
  | cons delivery deliveries ih =>
      obtain ⟨hfirst, hrest⟩ := List.forall_mem_cons.1 hkinded
      rw [List.map_cons, List.flatMap_cons, List.map_append, ← ih hrest]
      cases delivery with
      | defaults row =>
          have hmark := kind_eq_default_iff.1 hfirst.1
          simp [Delivery.rows, deliveryCall, rowCall, hmark]
      | record primary continuations =>
          obtain ⟨⟨hkind, -⟩, hjoined⟩ := hfirst
          have hmark : ¬primary.row.isDefault = true := fun hm => by
            have hdefault : handler.kind config primary = .default := kind_eq_default_iff.2 hm
            rw [hkind] at hdefault
            cases hdefault
          cases continuations with
          | nil => simp [Delivery.rows, deliveryCall, rowCall, hmark]
          | cons next rest =>
              exact absurd (hjoined next List.mem_cons_self).1 (kind_ne_continuation hcontinues next)

end

def countKind (handler : Handler η) (config : MappingConfig) (kind : RowKind)
    (rows : List (Arrival η)) : Nat :=
  rows.countP (handler.kind config · = kind)

theorem length_eq_countKind (handler : Handler η) (config : MappingConfig)
    (rows : List (Arrival η)) :
    rows.length = handler.countKind config .primary rows +
      handler.countKind config .continuation rows + handler.countKind config .default rows := by
  simp only [countKind]
  induction rows with
  | nil => rfl
  | cons row rows ih =>
      simp only [List.length_cons, List.countP_cons, ih]
      cases handler.kind config row <;> simp <;> omega

/-- Of a source that is read to its end, every row but the header is handed on once and in order:
a primary row together with the continuation rows after it, a default row on its own. -/
theorem readSource_delivers (handler : Handler η) (config : MappingConfig) (reading : ReadingConfig)
    (source : String) (options : SourceOptions) (feed : Feed) (state : MappingState η)
    (summary : SourceSummary)
    (hread : ((handler.sink config).readSource reading source options feed state).outcome =
      .ok summary) :
    let read := (handler.sink config).readSource reading source options feed state
    let lines := feed.reads reading.limits.readLength
    let reads := rowReads reading.limits (.ofFeed reading.limits feed)
    let placed := placedRows source options.verbose reads
    let started := handler.start source options state
    let arrivals := handler.arrivals config (readScript reading.limits source options feed) state
    ∃ (header : Option PlacedRow) (deliveries : List (Delivery η)),
      placed = header.toList ++ arrivals.map Arrival.placed ∧
      (∀ first ∈ placed.head?,
        (handler.bindColumns first.place first.row started).1 = .ok header.isNone) ∧
      (∀ row ∈ placed, ∃ read ∈ reads, read.row = row.row ∧ read.position.line = row.place.line ∧
        read.position.rest = lines.drop row.place.line) ∧
      arrivals = deliveries.flatMap Delivery.rows ∧
      (∀ delivery ∈ deliveries, delivery.Kinded handler config) ∧
      read.state.calls.toList = state.calls.toList ++
        (openingCalls source placed ++ deliveries.map (handler.deliveryCall config)) ∧
      summary.rows = header.toList.length + handler.countKind config .primary arrivals +
        handler.countKind config .continuation arrivals +
          handler.countKind config .default arrivals := by
  intro read lines reads placed started arrivals
  obtain ⟨deliveries, dropped, hrows, hdelivers, hend⟩ :=
    script_delivers handler config reading.limits source options feed state
  obtain ⟨hstate, houtcome⟩ := (handler.sink config).readToEnd_eq_run
    (sink_keepsRows handler config) reading source options feed state
  have hread' : ((handler.sink config).readToEnd reading source options feed state).1 =
    .ok summary := hread
  rw [hread'] at houtcome
  generalize hran : ((handler.sink config).run (readScript reading.limits source options feed)
    state).1 = outcome at houtcome
  generalize htext : textFailure? source reads = failure? at houtcome
  cases outcome with
  | error error => cases failure? <;> simp at houtcome
  | ok _ =>
      cases failure? with
      | some failure => simp at houtcome
      | none =>
          obtain ⟨rfl, header, hplaced, hheader⟩ := hend hran htext
          have hrows' : summary.rows = placed.length := by
            simp only [Except.ok.injEq] at houtcome
            rw [houtcome]
          refine ⟨header, deliveries, hplaced, hheader, ?_, by simpa using hrows,
            hdelivers.kinded, ?_, ?_⟩
          · exact placedRows_drop source options.verbose rfl
          · have hcalls : read.state.calls = _ := congrArg MappingState.calls hstate
            rw [hcalls, hdelivers.calls, offered_start_calls, List.append_assoc]
          · rw [hrows', congrArg List.length hplaced, List.length_append, List.length_map,
              length_eq_countKind handler config arrivals]
            simp only [Nat.add_assoc]

def lenient : Handler Unit where
  takeRecord _ _ _ own := (.ok (), own)
  continues main _ _ := (main.value "id").isEmpty

theorem readSource_delivers_lenient :
    let sink := lenient.sink .takingDefaults
    let feed := Feed.ofText "id,v\na,1\n,2\n*b,3\nc,4\n"
    let read := sink.readSource {} "parts.csv" {} feed { handler := () }
    read.outcome.toOption.map SourceSummary.rows = some 5 ∧
      ∃ deliveries : List (Delivery Unit),
        lenient.arrivals .takingDefaults (readScript {} "parts.csv" {} feed) { handler := () } =
            deliveries.flatMap Delivery.rows ∧
          read.state.calls.toList = .fileName "parts.csv" :: .header ["id", "v"] ::
            deliveries.map (lenient.deliveryCall .takingDefaults) := by
  intro sink feed read
  have hrows : read.outcome.toOption.map SourceSummary.rows = some 5 := by decide +kernel
  have hopening : openingCalls "parts.csv" (placedRows "parts.csv" false
      (rowReads {} (.ofFeed {} feed))) = [.fileName "parts.csv", .header ["id", "v"]] := by
    decide +kernel
  refine ⟨hrows, ?_⟩
  cases hread : read.outcome with
  | error error => simp [hread, Except.toOption] at hrows
  | ok summary =>
      obtain ⟨_, deliveries, _, _, _, harrivals, _, hcalls, _⟩ :=
        readSource_delivers lenient .takingDefaults {} "parts.csv" {} feed { handler := () } summary
          hread
      refine ⟨deliveries, harrivals, hcalls.trans ?_⟩
      rw [hopening]
      rfl

end Handler

end DefinitionFiles
