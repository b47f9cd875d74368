import DefinitionFiles.Proofs.Mapping.Run

namespace DefinitionFiles

variable {η : Type} {handler : Handler η} {config : MappingConfig}

namespace Handler

theorem table_of_arrival?_none {call : SinkCall} {state : MappingState η}
    (h : handler.arrival? call state = none) :
    ((handler.sink config).perform call state).2.table = state.table := by
  cases call with
  | start source options =>
      simp only [Sink.perform, sink, start]
      split <;> rfl
  | finish place => exact handler.release_table config place state
  | row row place =>
      rw [perform_row_of_arrival?_none h]
      exact bindColumns_table handler place row state

theorem kind_eq_default_iff {row : Arrival η} :
    handler.kind config row = .default ↔ row.row.isDefault = true := by
  simp only [kind]
  repeat' split
  all_goals simp_all

theorem kind_of_registers {arrival : Arrival η} (h : handler.registers config arrival = true) :
    handler.kind config arrival = .default := by
  simp only [registers, Bool.and_eq_true, and_assoc] at h
  exact kind_eq_default_iff.2 h.1

theorem registers_eq_false {arrival : Arrival η} (h : handler.kind config arrival ≠ .default) :
    handler.registers config arrival = false :=
  Bool.eq_false_iff.2 fun hr => h (kind_of_registers hr)

/-- The table of defaults changes by the rows that are registered and by nothing else. -/
theorem table_of_takes {arrival : Arrival η} {outcome : Except ReadFailure Unit}
    {state : MappingState η} (h : handler.Takes config arrival outcome state) :
    state.table =
      if handler.registers config arrival then
        arrival.state.table.merge (handler.registration config arrival).category
          (handler.registration config arrival).stated
      else arrival.state.table := by
  cases h with
  | refused error h => simp [h]
  | unreleased error h hkind => simp [h, released_table]
  | joined held hkind hfits hheld =>
      have hr : handler.registers config arrival = false := registers_eq_false (by simp [hkind])
      simp [hr, MappingState.hold]
  | replaced hkind hfits hreleased =>
      have hr : handler.registers config arrival = false := registers_eq_false (by simp [hkind])
      simp [hr, MappingState.hold, released_table]
  | registered outcome hkind h hfits =>
      simp [h, registered, released_table, MappingState.call, MappingState.report,
        MappingState.withHandler]

def registering? (handler : Handler η) (config : MappingConfig) (call : SinkCall)
    (state : MappingState η) : Option (Arrival η) :=
  (handler.arrival? call state).filter (handler.registers config)

def registrations (handler : Handler η) (config : MappingConfig) (arrivals : List (Arrival η)) :
    List Registration :=
  (arrivals.filter (handler.registers config)).map (handler.registration config)

theorem registrations_append (arrivals more : List (Arrival η)) :
    handler.registrations config (arrivals ++ more) =
      handler.registrations config arrivals ++ handler.registrations config more := by
  simp [registrations]

end Handler

def DefaultsTable.mergeAll (table : DefaultsTable) (registrations : List Registration) :
    DefaultsTable :=
  registrations.foldl (fun table registration =>
    table.merge registration.category registration.stated) table

theorem DefaultsTable.mergeAll_append (table : DefaultsTable) (first second : List Registration) :
    table.mergeAll (first ++ second) = (table.mergeAll first).mergeAll second :=
  List.foldl_append

theorem DefaultsTable.within_mergeAll (table : DefaultsTable) (registrations : List Registration) :
    table.Within (table.mergeAll registrations) := by
  induction registrations generalizing table with
  | nil => exact .refl table
  | cons registration registrations ih =>
      exact (table.within_merge registration.category registration.stated).trans (ih _)

section

variable {p : Defaults → Prop} {table : DefaultsTable}

def DefaultsTable.Each (p : Defaults → Prop) (table : DefaultsTable) : Prop :=
  ∀ category entry, table.get? category = some entry → p entry

theorem DefaultsTable.each_empty : Each p {} := by
  intro category entry h
  simp [get?] at h

variable (hempty : p {})
  (hmerge : ∀ below above : Defaults, p below → p above → p (below.merge above))

include hempty hmerge

theorem DefaultsTable.Each.merge (h : table.Each p) (category : String) {entry : Defaults}
    (hentry : p entry) : (table.merge category entry).Each p := by
  intro other found hfound
  rw [get?_merge] at hfound
  split at hfound
  · cases hfound
    refine hmerge _ _ ?_ hentry
    cases ht : table.get? category with
    | none => exact hempty
    | some below => exact h category below ht
  · exact h other found hfound

theorem DefaultsTable.Each.mergeAll
    (hstated : ∀ parts : RecordParts, p (.stated parts.main parts.subs)) (h : table.Each p)
    (registrations : List Registration) : (table.mergeAll registrations).Each p := by
  induction registrations generalizing table with
  | nil => exact h
  | cons registration registrations ih =>
      exact ih (h.merge hempty hmerge registration.category (hstated registration.parts))

end

theorem DefaultsTable.mem_categories {table : DefaultsTable} {category : String} :
    category ∈ table.categories ↔ (table.get? category).isSome := by
  simp [categories, get?]

theorem DefaultsTable.mem_categories_mergeAll (table : DefaultsTable)
    (registrations : List Registration) (category : String) :
    category ∈ (table.mergeAll registrations).categories ↔
      category ∈ table.categories ∨ category ∈ registrations.map Registration.category := by
  induction registrations generalizing table with
  | nil => simp [mergeAll]
  | cons registration registrations ih =>
      have hmerge : category ∈ (table.merge registration.category registration.stated).categories ↔
          category = registration.category ∨ category ∈ table.categories := by
        rw [mem_categories, get?_merge]
        by_cases hsame : registration.category = category
        · simp [hsame]
        · simp [hsame, Ne.symm hsame, mem_categories]
      have hall : table.mergeAll (registration :: registrations) =
          (table.merge registration.category registration.stated).mergeAll registrations := rfl
      rw [hall, ih, hmerge, List.map_cons, List.mem_cons, or_assoc, or_left_comm]

theorem DefaultsTable.categories_ordered (table : DefaultsTable) :
    table.categories.Pairwise (· < ·) := by
  refine (Std.ExtTreeMap.ordered_keys (t := table.entries)).imp fun h => ?_
  exact compareOfLessAndEq_eq_lt.1 h

namespace Handler

theorem perform_table (handler : Handler η) (config : MappingConfig) (call : SinkCall)
    (state : MappingState η) :
    ((handler.sink config).perform call state).2.table =
      state.table.mergeAll
        (handler.registrations config (handler.arrival? call state).toList) := by
  cases ha : handler.arrival? call state with
  | none => exact table_of_arrival?_none ha
  | some arrival =>
      rw [table_of_takes (takes_of_arrival? config ha), (arrival?_eq_some config ha).2.2.1]
      cases hr : handler.registers config arrival <;>
        simp [registrations, hr, DefaultsTable.mergeAll]

theorem run_table (handler : Handler η) (config : MappingConfig) (calls : List SinkCall)
    (state : MappingState η) :
    ((handler.sink config).run calls state).2.table =
      state.table.mergeAll
        (handler.registrations config (handler.arrivals config calls state)) := by
  induction calls generalizing state with
  | nil => rfl
  | cons call calls ih =>
      have hp := perform_table handler config call state
      simp only [Sink.run, arrivals]
      rw [registrations_append, DefaultsTable.mergeAll_append, ← hp]
      cases ((handler.sink config).perform call state).1 with
      | error error => rfl
      | ok _ => exact ih _

theorem table_of_arrivals {calls : List SinkCall} {state : MappingState η}
    {before after : List (Arrival η)} {arrival : Arrival η}
    (h : handler.arrivals config calls state = before ++ arrival :: after) :
    arrival.state.table = state.table.mergeAll (handler.registrations config before) := by
  obtain ⟨earlier, call, later, -, rfl, ha⟩ := arrivals_split h
  rw [(arrival?_eq_some config ha).2.2.1, run_table]

end Handler

/-- What is done with a reader: a source or a file is read, its sink is called by hand, or
its handler is changed. -/
inductive Use (η : Type)
  | read (source : String) (options : SourceOptions) (feed : Feed)
  | readPath (path : String) (options : SourceOptions) (found : FileState)
  | perform (call : SinkCall)
  | setHandler (own : η)

def Use.script (limits : Limits) : Use η → List SinkCall
  | .read source options feed => readScript limits source options feed
  | .readPath path options (.file content _) => readScript limits path options content
  | .readPath _ _ .directory | .readPath _ _ (.unreadable _) => []
  | .perform call => [call]
  | .setHandler _ => []

namespace Handler

def use (handler : Handler η) (config : MappingConfig) (reading : ReadingConfig) :
    Use η → MappingState η → MappingState η
  | .read source options feed, state =>
      ((handler.sink config).readSource reading source options feed state).state
  | .readPath path options found, state =>
      ((handler.sink config).readPath reading path options found state).state
  | .perform call, state => ((handler.sink config).perform call state).2
  | .setHandler own, state => state.withHandler own

def useAll (handler : Handler η) (config : MappingConfig) (reading : ReadingConfig)
    (uses : List (Use η)) (state : MappingState η) : MappingState η :=
  uses.foldl (fun state use => handler.use config reading use state) state

/-- The rows that came to columns as data in the course of some uses. -/
def history (handler : Handler η) (config : MappingConfig) (reading : ReadingConfig) :
    List (Use η) → MappingState η → List (Arrival η)
  | [], _ => []
  | use :: uses, state =>
      handler.arrivals config (use.script reading.limits) state ++
        handler.history config reading uses (handler.use config reading use state)

theorem use_table (reading : ReadingConfig) (use : Use η) (state : MappingState η) :
    (handler.use config reading use state).table = state.table.mergeAll
      (handler.registrations config
        (handler.arrivals config (use.script reading.limits) state)) := by
  rw [← run_table]
  cases use with
  | read source options feed =>
      exact congrArg MappingState.table (readSource_state reading source options feed state)
  | readPath path options found =>
      cases found with
      | file content modified =>
          exact congrArg MappingState.table (readSource_state reading path options content state)
      | directory => rfl
      | unreadable reason => rfl
  | perform call =>
      simp only [Handler.use, Use.script, Sink.run]
      split <;> rfl
  | setHandler own => rfl

theorem useAll_table (handler : Handler η) (config : MappingConfig) (reading : ReadingConfig)
    (uses : List (Use η)) (state : MappingState η) :
    (handler.useAll config reading uses state).table = state.table.mergeAll
      (handler.registrations config (handler.history config reading uses state)) := by
  induction uses generalizing state with
  | nil => rfl
  | cons use uses ih =>
      rw [history, registrations_append, DefaultsTable.mergeAll_append, ← use_table]
      exact ih _

/-- What every call keeps, and every change of the handler, all uses of a reader keep. -/
theorem useAll_keeps {p : MappingState η → Prop}
    (hperform : ∀ call state, p state → p ((handler.sink config).perform call state).2)
    (hset : ∀ own state, p state → p (state.withHandler own)) (reading : ReadingConfig)
    (uses : List (Use η)) {state : MappingState η} (h : p state) :
    p (handler.useAll config reading uses state) := by
  have hread : ∀ source options feed state, p state →
      p ((handler.sink config).readSource reading source options feed state).state := by
    intro source options feed state hs
    rw [readSource_state]
    exact Sink.run_keeps hperform _ hs
  induction uses generalizing state with
  | nil => exact h
  | cons use uses ih =>
      refine ih ?_
      cases use with
      | read source options feed => exact hread source options feed state h
      | readPath path options found =>
          cases found with
          | file content modified => exact hread path options content state h
          | directory => exact h
          | unreadable reason => exact h
      | perform call => exact hperform call state h
      | setHandler own => exact hset own state h

theorem registering?_eq_some_iff {call : SinkCall} {state : MappingState η} {arrival : Arrival η} :
    handler.registering? config call state = some arrival ↔
      handler.arrival? call state = some arrival ∧ arrival.row.isDefault = true ∧
        config.takesDefaults = true ∧ (handler.released config arrival).1 = .ok () ∧
        arrival.Fits config := by
  have hreleased : (handler.released config arrival).1.isOk = true ↔
      (handler.released config arrival).1 = .ok () := by
    cases (handler.released config arrival).1 <;> simp [Except.isOk, Except.toBool]
  have hfits : (arrival.assigned config).isOk = true ↔ arrival.Fits config := by
    simp only [Arrival.Fits, Arrival.parts]
    cases arrival.assigned config <;> simp [Except.isOk, Except.toBool]
  simp only [registering?, Option.filter_eq_some_iff, registers, Bool.and_eq_true, hreleased,
    hfits, and_assoc]

theorem eq_registered_of_takes {arrival : Arrival η} {outcome : Except ReadFailure Unit}
    {state : MappingState η} (h : handler.Takes config arrival outcome state)
    (hr : handler.registers config arrival = true) : state = handler.registered config arrival := by
  have hkind := kind_of_registers hr
  cases h with
  | refused error h => simp [h] at hr
  | unreleased error h _ => simp [h] at hr
  | joined held h _ _ => simp [h] at hkind
  | replaced h _ _ => simp [h] at hkind
  | registered _ _ _ _ => rfl

/-- The table of defaults is what the default rows that were taken add up to, each merged into
the entry of its own category and handed on as that entry; all else leaves it alone, and
nothing is ever taken out. -/
theorem table_holds_registrations (handler : Handler η) (config : MappingConfig)
    (reading : ReadingConfig) :
    (∀ (call : SinkCall) (state : MappingState η),
      let after := ((handler.sink config).perform call state).2
      match handler.registering? config call state with
      | none => after.table = state.table
      | some arrival =>
          let ⟨category, parts, ctx⟩ := handler.registration config arrival
          let entry := ((state.table.get? category).getD {}).merge (.stated parts.main parts.subs)
          call = .row arrival.row arrival.place ∧
            (∀ other, after.table.get? other =
              if other = category then some entry else state.table.get? other) ∧
            after.calls = (handler.released config arrival).2.calls.push
              (.defaults category entry ctx)) ∧
      (∀ (call : SinkCall) (state : MappingState η) (arrival : Arrival η),
        handler.registering? config call state = some arrival ↔
          handler.arrival? call state = some arrival ∧ arrival.row.isDefault = true ∧
            config.takesDefaults = true ∧ (handler.released config arrival).1 = .ok () ∧
            arrival.Fits config) ∧
      ∀ (uses : List (Use η)) (state : MappingState η),
        let after := handler.useAll config reading uses state
        after.table = state.table.mergeAll
            (handler.registrations config (handler.history config reading uses state)) ∧
          state.table.Within after.table := by
  refine ⟨?_, fun _ _ _ => registering?_eq_some_iff, ?_⟩
  · intro call state after
    have ht : after.table = _ := perform_table handler config call state
    cases h : handler.registering? config call state with
    | none =>
        have hn : handler.registrations config (handler.arrival? call state).toList = [] := by
          simp only [registering?] at h
          rw [registrations]
          cases ha : handler.arrival? call state <;> simp_all
        simpa [hn, DefaultsTable.mergeAll] using ht
    | some arrival =>
        obtain ⟨ha, hr⟩ := Option.filter_eq_some_iff.1 h
        obtain ⟨hcall, -, htable, -, -⟩ := arrival?_eq_some config ha
        have hr' : handler.registrations config (handler.arrival? call state).toList =
            [handler.registration config arrival] := by
          simp [registrations, ha, hr]
        refine ⟨hcall, ?_, ?_⟩
        · intro other
          rw [ht, hr', DefaultsTable.mergeAll, List.foldl_cons, List.foldl_nil,
            DefaultsTable.get?_merge]
          simp only [eq_comm]
          rfl
        · have hs : after = _ := eq_registered_of_takes (takes_of_arrival? config ha) hr
          simp only [hs, registered, defaultsCall, registeredEntry, htable]
          rfl
  · intro uses state after
    have ht := useAll_table handler config reading uses state
    refine ⟨ht, ?_⟩
    rw [show after.table = _ from ht]
    exact DefaultsTable.within_mergeAll _ _

end Handler

end DefinitionFiles
