import DefinitionFiles.Proofs.Mapping.Renumbering

namespace DefinitionFiles

variable {η : Type}

theorem Sink.run_singleton_congr {σ : Type} {sink : Sink σ} {call other : SinkCall} {state : σ}
    (h : sink.perform call state = sink.perform other state) :
    sink.run [call] state = sink.run [other] state := by
  simp only [run, h]

def SourceSummary.withoutFingerprint (summary : SourceSummary) : Nat × Option Int :=
  (summary.rows, summary.modified)

theorem Sink.readToEnd_padded {σ : Type} {sink : Sink σ} (hkeep : sink.KeepsRows)
    (config : ReadingConfig) (source : String) (options : SourceOptions) {plain padded : Feed}
    {f : Nat → Nat} (h : Feed.Padded config.limits plain padded f) {state : σ}
    (hran : (sink.run (readScript config.limits source options padded) state).1 =
      (sink.run (readScript config.limits source options plain) state).1.mapError
        (ReadFailure.renumber f)) :
    (sink.readToEnd config source options padded state).1.map SourceSummary.withoutFingerprint =
      ((sink.readToEnd config source options plain state).1.mapError
        (ReadFailure.renumber f)).map SourceSummary.withoutFingerprint := by
  obtain ⟨hrows, hfailure⟩ := h.placedRows source options.verbose
  have hcount := congrArg List.length hrows
  rw [List.length_map] at hcount
  have hplain := (readToEnd_eq_run hkeep config source options plain state).2
  have hpadded := (readToEnd_eq_run hkeep config source options padded state).2
  rw [hran, hfailure] at hpadded
  cases ho : (sink.run (readScript config.limits source options plain) state).1 with
  | error error =>
      rw [ho] at hplain hpadded
      simp only [Except.mapError] at hplain hpadded
      rw [hplain, hpadded]
      rfl
  | ok _ =>
      rw [ho] at hplain hpadded
      cases hf : textFailure? source (rowReads config.limits (.ofFeed config.limits plain)) with
      | some failure =>
          rw [hf] at hplain hpadded
          simp only [Except.mapError, Option.map_some] at hplain hpadded
          rw [hplain, hpadded]
          rfl
      | none =>
          rw [hf] at hplain hpadded
          simp only [Except.mapError, Option.map_none, hcount] at hplain hpadded
          rw [hplain, hpadded]
          rfl

theorem MappingState.renumber_fresh (f : Nat → Nat) (state : MappingState η) :
    state.fresh.renumber f = state.fresh := by
  simp [renumber, fresh, Session.renumber]

namespace Handler

variable {handler : Handler η} {config : MappingConfig}

theorem release_line (handler : Handler η) (config : MappingConfig) (place : RowPlace) (line : Nat)
    (state : MappingState η) :
    handler.release config { place with line } state = handler.release config place state := by
  simp only [release]

/-- The calls for a padded source do what those for the plain one do with other numbers. Only
the number of the last line may be any other, and it is not looked at. -/
theorem run_padded {limits : Limits} {plain padded : Feed} {f : Nat → Nat}
    (h : Feed.Padded limits plain padded f) (source : String) (options : SourceOptions)
    (state : MappingState η) :
    (handler.sink config).run (readScript limits source options padded) state =
      (handler.sink config).run
        ((readScript limits source options plain).map (SinkCall.renumber f)) state := by
  obtain ⟨hrows, hfailure⟩ := h.placedRows source options.verbose
  let reads := rowReads limits (.ofFeed limits plain)
  let reads' := rowReads limits (.ofFeed limits padded)
  let rows := placedRows source options.verbose reads
  have hcalls : (rows.map (PlacedRow.renumber f)).map PlacedRow.call =
      (rows.map PlacedRow.call).map (SinkCall.renumber f) := by
    rw [List.map_map, List.map_map]
    rfl
  have hfinish : ∀ state, (handler.sink config).run (finishCalls source options reads') state =
      (handler.sink config).run
        ((finishCalls source options reads).map (SinkCall.renumber f)) state := by
    intro state
    have hf : textFailure? source reads' = (textFailure? source reads).map (ReadFailure.renumber f) :=
      hfailure
    simp only [finishCalls, hf]
    cases textFailure? source reads with
    | some failure => rfl
    | none =>
        let place : RowPlace := ⟨source, 0, options.verbose⟩
        have hline : ∀ line, (handler.sink config).perform (.finish { place with line }) state =
            handler.release config place state := fun line => release_line handler config place line state
        simp only [Option.map_none, List.map_singleton]
        exact Sink.run_singleton_congr ((hline _).trans (hline (f (endOfReads reads).line)).symm)
  simp only [readScript, List.map_cons, List.map_append, hrows]
  change (handler.sink config).run (_ ++ _) (handler.start source options state) =
    (handler.sink config).run (_ ++ _) (handler.start source options state)
  rw [Sink.run_append, Sink.run_append, hcalls]
  cases ((handler.sink config).run ((rows.map PlacedRow.call).map (SinkCall.renumber f))
      (handler.start source options state)).1 with
  | error error => rfl
  | ok _ => exact hfinish _

/-- Lines that say nothing, added between the rows of a source, do not change what is read: the
rows that are counted, what the handler is given, what it makes of that and the table of defaults
are the same, and so are the failures. Only the numbers of the lines after them are higher. -/
theorem readSource_padded (handler : Handler η) (hlines : handler.IgnoresLines)
    (config : MappingConfig) (reading : ReadingConfig) (source : String) (options : SourceOptions)
    {plain padded : Feed} {f : Nat → Nat} (h : Feed.Padded reading.limits plain padded f)
    (state : MappingState η) :
    let read := (handler.sink config).readSource reading source options plain state
    let read' := (handler.sink config).readSource reading source options padded state
    read'.outcome.map SourceSummary.withoutFingerprint =
        (read.outcome.mapError (ReadFailure.renumber f)).map SourceSummary.withoutFingerprint ∧
      read'.state.handler = read.state.handler ∧ read'.state.table = read.state.table ∧
      ∃ calls : Array HookCall, read.state.calls = state.calls ++ calls ∧
        read'.state.calls = state.calls ++ calls.map (HookCall.renumber f) := by
  intro read read'
  let script := readScript reading.limits source options plain
  obtain ⟨hrows, hfailure⟩ := h.placedRows source options.verbose
  have hran : (handler.sink config).run (readScript reading.limits source options padded) state.fresh =
      SessionStep.renumber f ((handler.sink config).run script state.fresh) := by
    rw [run_padded h, ← run_renumber hlines, MappingState.renumber_fresh]
  obtain ⟨houtcome, -, hstate, -⟩ :=
    readSource_fresh handler config reading source options plain state
  obtain ⟨houtcome', -, hstate', -⟩ :=
    readSource_fresh handler config reading source options padded state
  let ran := (handler.sink config).run script state.fresh
  have hread : read.state = ran.2.after state.calls state.log := by
    rw [← readSource_state]
    exact hstate
  have hread' : read'.state = (ran.2.renumber f).after state.calls state.log := by
    have hs := congrArg Prod.snd hran
    rw [← readSource_state] at hs
    exact hstate'.trans (congrArg _ hs)
  refine ⟨?_, ?_, ?_, ran.2.calls, ?_, ?_⟩
  · have ho := Sink.readToEnd_padded (sink_keepsRows handler config) reading source options h
      (congrArg Prod.fst hran)
    rw [show read.outcome = _ from houtcome, show read'.outcome = _ from houtcome']
    exact ho
  · rw [hread, hread']
    rfl
  · rw [hread, hread']
    rfl
  · rw [hread]
    rfl
  · rw [hread']
    rfl

theorem readSource_padded_grouped :
    let plain := Feed.ofText "id,v\na,1\n,2\n"
    let padded := Feed.ofText "# c\nid,v\na,1\n\"\", \n,2\n"
    let f := fun n => insertedAfter 3 (insertedAfter 0 n)
    let sink := lenient.sink {}
    lenient.IgnoresLines ∧ Feed.Padded {} plain padded f ∧ (f 1, f 2, f 3) = (2, 3, 5) ∧
      (sink.readSource {} "a.csv" {} padded { handler := () }).state.calls =
        (sink.readSource {} "a.csv" {} plain { handler := () }).state.calls.map
          (HookCall.renumber f) := by
  intro plain padded f sink
  have hlines : lenient.IgnoresLines :=
    ⟨fun _ _ _ _ _ => rfl, fun _ _ _ _ => rfl, fun _ _ _ _ => rfl, fun _ _ _ _ => rfl,
      fun _ _ _ _ _ => rfl⟩
  have hcomment : Limits.Skips {} (Text.encodeUtf8 "# c\n") := by
    refine ⟨by decide +kernel, ?_, "# c\n", Text.decodeUtf8_encodeUtf8 _, .comment _ (by decide +kernel)⟩
    simp only [Limits.Admits]
    decide +kernel
  have hempty : Limits.Skips {} (Text.encodeUtf8 "\"\", \n") := by
    refine ⟨by decide +kernel, ?_, "\"\", \n", Text.decodeUtf8_encodeUtf8 _,
      .separators _ true (by decide +kernel) (by decide +kernel)⟩
    simp only [Limits.Admits]
    decide +kernel
  let before := Feed.ofText "# c\nid,v\na,1\n"
  have hfirst : Feed.Padded {} plain (before ++ Feed.ofText ",2\n") fun n => insertedAfter 0 n :=
    .inserted [] plain _ id .plain (.of_lineFeed rfl (by decide +kernel) (by decide)) hcomment
      (.inl (by decide +kernel))
  have hcount : before.lines.length = 3 := by decide +kernel
  have hpadded : Feed.Padded {} plain padded f := by
    have hbefore : Limits.Closes {} before :=
      .of_lineFeed (by decide +kernel) (by decide +kernel) (by decide)
    have hsecond := hfirst.inserted before (.ofText ",2\n") _ _ hbefore hempty
      (.inl (by decide +kernel))
    rw [hcount] at hsecond
    exact hsecond
  obtain ⟨-, -, -, calls, hread, hread'⟩ := readSource_padded lenient hlines {} {} "a.csv" {} hpadded
    { handler := () }
  refine ⟨hlines, hpadded, rfl, ?_⟩
  rw [hread', hread]
  simp

end Handler

end DefinitionFiles
