import DefinitionFiles.Proofs.Columns.Runs
import DefinitionFiles.Proofs.Mapping.Heard
import DefinitionFiles.Proofs.Mapping.Shape

namespace DefinitionFiles

variable {η : Type}

namespace HeldRow

structure Under (held : HeldRow) (columns : Columns) : Prop where
  main : held.main.HasJust columns.main
  own : held.groups ≤ held.subs.length
  groups : held.groups ≤ columns.groups.length

structure Grows (held later : HeldRow) : Prop where
  main : later.main = held.main
  groups : later.groups = held.groups
  line : later.line = held.line
  subs : held.subs <+: later.subs

def HandedBy (held : HeldRow) (call : HookCall) : Prop :=
  ∃ main subs ctx, call = .record main subs ctx ∧ main.SameNames held.main ∧
    List.Forall₂ Record.SameNames subs held.subs ∧ ctx.line = held.line

variable {held : HeldRow} {columns : Columns}

theorem Under.append (h : held.Under columns) (more : List Record) :
    Under { held with subs := held.subs ++ more } columns :=
  ⟨h.main, by simpa using Nat.le_add_right_of_le h.own, h.groups⟩

theorem Under.heldRow {arrival : Arrival η} {config : MappingConfig} (h : arrival.Fits config) :
    (Handler.heldRow config arrival []).Under arrival.columns :=
  ⟨(Arrival.shapes_parts h).main, by simp [Handler.heldRow], (Arrival.shapes_parts h).count⟩

theorem Grows.refl (held : HeldRow) : held.Grows held := ⟨rfl, rfl, rfl, List.prefix_rfl⟩

theorem grows_append (held : HeldRow) (more : List Record) :
    held.Grows { held with subs := held.subs ++ more } :=
  ⟨rfl, rfl, rfl, List.prefix_append held.subs more⟩

end HeldRow

namespace Session

/-- A row is held back only while the columns are bound that it was mapped by. -/
def Sound (session : Session) : Prop :=
  ∀ held, session.held = some held → ∃ columns, session.columns = some columns ∧ held.Under columns

variable {session : Session}

theorem sound_of_held_eq_none (h : session.held = none) : session.Sound := by
  intro held hheld
  rw [h] at hheld
  cases hheld

theorem Sound.held_eq_none (h : session.Sound) (hcolumns : session.columns = none) :
    session.held = none := by
  cases hheld : session.held with
  | none => rfl
  | some held =>
      obtain ⟨columns, hbound, -⟩ := h held hheld
      rw [hcolumns] at hbound
      cases hbound

theorem assign_ne_unbound {columns : Columns} (h : session.columns = some columns)
    (config : MappingConfig) (row : Row) :
    session.assign config row ≠ .error (.header .unbound) := by
  simp only [assign, h]
  split <;> simp

end Session

namespace Handler

variable {handler : Handler η} {config : MappingConfig}

theorem start_held (handler : Handler η) (source : String) (options : SourceOptions)
    (state : MappingState η) : (handler.start source options state).session.held = none := by
  simp only [start]
  split <;> rfl

theorem bindColumns_held (handler : Handler η) (place : RowPlace) (row : Row)
    (state : MappingState η) :
    (handler.bindColumns place row state).2.session.held = state.session.held := by
  obtain ⟨columns, hsession⟩ := bindColumns_session handler place row state
  rw [hsession]

theorem released_held (arrival : Arrival η) :
    (handler.released config arrival).2.session.held = none := by
  rw [released, release_session]

theorem released_columns (arrival : Arrival η) :
    (handler.released config arrival).2.session.columns = arrival.state.session.columns := by
  rw [released, release_session]

theorem bindColumns_sound (place : RowPlace) (row : Row) {state : MappingState η}
    (h : state.session.Sound) (hcolumns : state.session.columns = none) :
    (handler.bindColumns place row state).2.session.Sound := by
  refine Session.sound_of_held_eq_none ?_
  rw [bindColumns_held]
  exact h.held_eq_none hcolumns

theorem arrival?_sound {call : SinkCall} {state : MappingState η} {arrival : Arrival η}
    (h : state.session.Sound) (ha : handler.arrival? call state = some arrival) :
    arrival.state.session.Sound := by
  rcases state_of_arrival? ha with hs | ⟨hcolumns, hs⟩ <;> rw [hs]
  · exact h
  · exact bindColumns_sound _ _ h hcolumns

theorem takes_sound {arrival : Arrival η} {outcome : Except ReadFailure Unit}
    {after : MappingState η} (htakes : handler.Takes config arrival outcome after)
    (hcolumns : arrival.state.session.columns = some arrival.columns)
    (h : arrival.state.session.Sound) : after.session.Sound := by
  cases htakes with
  | refused _ _ => exact h
  | unreleased _ _ _ => exact Session.sound_of_held_eq_none (released_held arrival)
  | registered _ _ _ _ => exact Session.sound_of_held_eq_none (released_held arrival)
  | joined held _ _ hheld =>
      rintro _ ⟨⟩
      obtain ⟨columns, hbound, hunder⟩ := h held hheld
      exact ⟨columns, hbound, hunder.append _⟩
  | replaced _ hfits _ =>
      rintro _ ⟨⟩
      exact ⟨arrival.columns, (released_columns arrival).trans hcolumns, .heldRow hfits⟩

/-- A row comes to columns before it is held back, and no call gives up the columns but the one
that gives up the row as well. -/
theorem perform_sound (handler : Handler η) (config : MappingConfig) (call : SinkCall)
    (state : MappingState η) (h : state.session.Sound) :
    ((handler.sink config).perform call state).2.session.Sound := by
  cases call with
  | start source options =>
      exact Session.sound_of_held_eq_none (start_held handler source options state)
  | finish place =>
      refine Session.sound_of_held_eq_none ?_
      simp only [Sink.perform, sink, release_session]
  | row row place =>
      cases ha : handler.arrival? (.row row place) state with
      | none =>
          rw [perform_row_of_arrival?_none ha]
          cases hcolumns : state.session.columns with
          | none => exact bindColumns_sound place row h hcolumns
          | some columns => simp [arrival?, hcolumns] at ha
      | some arrival =>
          exact takes_sound (takes_of_arrival? config ha) (arrival?_eq_some config ha).2.1
            (arrival?_sound h ha)

theorem useAll_sound (handler : Handler η) (config : MappingConfig) (reading : ReadingConfig)
    (uses : List (Use η)) {state : MappingState η} (h : state.session.Sound) :
    (handler.useAll config reading uses state).session.Sound :=
  useAll_keeps (p := fun state => state.session.Sound) (perform_sound handler config)
    (fun _ _ h => h) reading uses h

/-- Whether the row held back, if there is one, is handed on when it is to be released, and the
sub-rows that its defaults are laid under are all there. -/
def HandsOn (handler : Handler η) (config : MappingConfig) (state : MappingState η) : Prop :=
  ∀ (place : RowPlace) (held : HeldRow), state.session.held = some held →
    min held.groups held.subs.length = held.groups ∧
    ∃ call, held.HandedBy call ∧
      (handler.release config place state).2.calls = state.calls.push call

theorem handsOn (handler : Handler η) (config : MappingConfig) {state : MappingState η}
    (h : state.session.Sound) : handler.HandsOn config state := by
  intro place held hheld
  obtain ⟨columns, hcolumns, hunder⟩ := h held hheld
  let ctx := (state.hold none).session.context columns { place with line := held.line }
  obtain ⟨hmain, hsubs⟩ := sameNames_handed handler config ctx (state.hold none) held
  refine ⟨Nat.min_eq_left hunder.own, _, ⟨_, _, ctx, rfl, hmain, hsubs, rfl⟩, ?_⟩
  rw [release_of_held handler config hheld hcolumns]
  exact congrArg (Array.push · _) (handed_calls ctx (state.hold none) held)

/-- Until a source starts, a row that is held back stays so or is the first thing handed on. -/
theorem held_or_handed {call : SinkCall} (hcall : ∀ source options, call ≠ .start source options)
    {state : MappingState η} (h : state.session.Sound) {held : HeldRow}
    (hheld : state.session.held = some held) :
    let after := ((handler.sink config).perform call state).2
    (∃ later, after.session.held = some later ∧ held.Grows later) ∨
      ∃ call calls, held.HandedBy call ∧
        after.calls.toList = state.calls.toList ++ call :: calls := by
  have hreleased : ∀ place, ∃ call, held.HandedBy call ∧
      (handler.release config place state).2.calls = state.calls.push call :=
    fun place => (handsOn handler config h place held hheld).2
  cases call with
  | start source options => exact absurd rfl (hcall source options)
  | finish place =>
      obtain ⟨call, hhanded, hcalls⟩ := hreleased place
      exact .inr ⟨call, [], hhanded, by simp [Sink.perform, sink, hcalls]⟩
  | row row place =>
      obtain ⟨columns, hcolumns, -⟩ := h held hheld
      have ha : handler.arrival? (.row row place) state = some ⟨row, place, state⟩ := by
        simp [arrival?, hcolumns]
      obtain ⟨call, hhanded, hcalls⟩ := hreleased place
      have hfirst : (handler.released config ⟨row, place, state⟩).2.calls.toList =
          state.calls.toList ++ [call] := by
        rw [← Array.toList_push, ← hcalls]
        rfl
      intro after
      have htakes : handler.Takes config _ _ after := takes_of_arrival? config ha
      clear_value after
      generalize ((handler.sink config).perform (.row row place) state).1 = outcome at htakes
      cases htakes with
      | refused _ _ => exact .inl ⟨held, hheld, .refl held⟩
      | joined held' _ _ hheld' =>
          obtain rfl : held = held' := Option.some.inj (hheld.symm.trans hheld')
          exact .inl ⟨_, rfl, held.grows_append _⟩
      | unreleased _ _ _ => exact .inr ⟨call, [], hhanded, hfirst⟩
      | replaced _ _ _ => exact .inr ⟨call, [], hhanded, hfirst⟩
      | registered _ _ _ _ =>
          refine .inr ⟨call, [handler.defaultsCall config ⟨row, place, state⟩], hhanded, ?_⟩
          simp [registered, MappingState.call, MappingState.report, MappingState.withHandler,
            hfirst]

theorem offered_of_unbound (handler : Handler η) (config : MappingConfig) {state : MappingState η}
    (h : state.session.columns = none) (row : Row) (place : RowPlace) :
    ∃ calls, ((handler.sink config).perform (.row row place) state).2.calls.toList =
      state.calls.toList ++ .header row :: calls := by
  cases ha : handler.arrival? (.row row place) state with
  | none => exact ⟨[], by rw [perform_row_of_arrival?_none ha, bindColumns_calls]; simp⟩
  | some arrival =>
      obtain ⟨hrow, -⟩ := arrival?_eq_some config ha
      obtain ⟨rfl, rfl⟩ : row = arrival.row ∧ place = arrival.place := by
        simpa [Arrival.placed, PlacedRow.call] using hrow
      have hbound : arrival.state.calls = state.calls.push (.header arrival.row) := by
        simp only [arrival?, h] at ha
        split at ha
        · rename_i bound hb
          rw [← Option.some.inj ha, ← bindColumns_calls handler arrival.place arrival.row state, hb]
        · cases ha
      obtain ⟨calls, hcalls, -⟩ := takes_hears (takes_of_arrival? config ha)
      exact ⟨calls, by rw [hcalls, hbound]; simp⟩

def answer (handler : Handler η) (own : η) : HookCall → Except Refusal Unit
  | .fileName _ => .ok ()
  | .header row => (handler.readHeader row own).1.map fun _ => ()
  | .record main subs ctx => (handler.takeRecord main subs ctx own).1
  | .defaults category entry ctx => (handler.takeDefaults category entry ctx own).1

/-- Whether a step that ends in a complaint of unbound columns does so because the handler
complained of them when it was called last. -/
def Excused {α : Type} (handler : Handler η) (step : SessionStep η α) : Prop :=
  ∀ source line, step.1 = .error (.refused source line (.header .unbound)) →
    ∃ call own, step.2.calls.back? = some call ∧ step.2.handler = handler.hear own call ∧
      handler.answer own call = .error (.header .unbound)

theorem excused_ok {α : Type} (a : α) (state : MappingState η) :
    handler.Excused (.ok a, state) := by
  rintro source line ⟨⟩

theorem excused_refuse {α : Type} {place : RowPlace} {refusal : Refusal}
    (h : refusal ≠ .header .unbound) (state : MappingState η) :
    handler.Excused (α := α) (.error (place.refuse refusal), state) := by
  rintro source line ⟨⟩
  exact absurd rfl h

theorem excused_answer (place : RowPlace) (state : MappingState η) (call : HookCall) (own : η) :
    handler.Excused ((handler.answer own call).mapError place.refuse,
      (state.call call).withHandler (handler.hear own call)) := by
  intro source line he
  refine ⟨call, own, Array.back?_push, rfl, ?_⟩
  cases ha : handler.answer own call with
  | ok _ => simp [ha, Except.mapError] at he
  | error refusal =>
      simp only [ha, Except.mapError, RowPlace.refuse, Except.error.injEq,
        ReadFailure.refused.injEq] at he
      rw [he.2.2]

theorem Excused.error {α β : Type} {error : ReadFailure} {state : MappingState η}
    (h : handler.Excused (α := α) (.error error, state)) :
    handler.Excused (α := β) (.error error, state) := by
  rintro source line ⟨⟩
  exact h source line rfl

theorem release_excused (handler : Handler η) (config : MappingConfig) (place : RowPlace)
    (state : MappingState η) : handler.Excused (handler.release config place state) := by
  obtain h | ⟨held, columns, -, -, h⟩ := release_cases handler config place state <;> rw [h]
  · exact excused_ok () _
  · exact excused_answer _ _ (.record _ _ _) _

theorem columnsFor_ne_unbound (required names : List String) :
    columnsFor required names ≠ .error (.header .unbound) := by
  have hspec := Columns.ofHeader_spec names
  simp only [columnsFor]
  split
  · rename_i fault hfault
    rw [hfault] at hspec
    obtain ⟨-, rfl⟩ | ⟨k, hk, -⟩ := hspec
    · simp
    · cases hk <;> simp
  · split <;> simp

theorem columnNames_ne_unbound (handler : Handler η) (own : η) (first : FirstRow) :
    handler.columnNames own first ≠ .error (.header .unbound) := by
  simp only [columnNames]
  repeat' split
  all_goals simp

theorem bindColumns_excused (handler : Handler η) (place : RowPlace) (row : Row)
    (state : MappingState η) : handler.Excused (handler.bindColumns place row state) := by
  simp only [bindColumns]
  split
  · rename_i refusal hbound
    by_cases hunbound : refusal = .header .unbound
    · subst hunbound
      simp only [bind, Except.bind] at hbound
      split at hbound
      · rename_i hread
        cases hbound
        intro _ _ _
        refine ⟨.header row, state.handler, Array.back?_push, rfl, ?_⟩
        simp [answer, hread, Except.map]
      · split at hbound
        · rename_i hnames
          cases hbound
          exact absurd hnames (columnNames_ne_unbound _ _ _)
        · split at hbound
          · rename_i hfor
            cases hbound
            exact absurd hfor (columnsFor_ne_unbound _ _)
          · cases hbound
    · exact excused_refuse hunbound _
  · exact excused_ok _ _

variable {state : MappingState η} {columns : Columns}

theorem takeDefaultRow_excused (hcolumns : state.session.columns = some columns) (place : RowPlace)
    (row : Row) : handler.Excused (handler.takeDefaultRow config place row state) := by
  cases ha : state.session.assign config row with
  | error refusal =>
      simp only [takeDefaultRow, ha]
      refine excused_refuse (fun he => ?_) state
      exact Session.assign_ne_unbound hcolumns config row (he ▸ ha)
  | ok assigned =>
      rw [takeDefaultRow_of_assign handler ha]
      exact excused_answer place _ (.defaults _ _ _) state.handler

theorem takeDataRow_excused (hcolumns : state.session.columns = some columns) (place : RowPlace)
    (row : Row) : handler.Excused (handler.takeDataRow config place row state) := by
  have hreleased := release_excused handler config place state
  cases ha : state.session.assign config row with
  | error refusal =>
      simp only [takeDataRow, ha]
      refine excused_refuse (fun he => ?_) state
      exact Session.assign_ne_unbound hcolumns config row (he ▸ ha)
  | ok assigned =>
      simp only [takeDataRow, ha]
      split
      · cases state.session.held with
        | none => exact excused_refuse (by simp) state
        | some held => exact excused_ok () _
      · generalize handler.release config place state = released at hreleased ⊢
        obtain ⟨outcome, next⟩ := released
        cases outcome with
        | error error => exact hreleased
        | ok _ => exact excused_ok () _

theorem takeBound_excused (hcolumns : state.session.columns = some columns) (row : Row)
    (place : RowPlace) :
    let taken := handler.takeBound config row place state
    handler.Excused (taken.outcome, taken.state) := by
  have hreleased := release_excused handler config place state
  have hkept : (handler.release config place state).2.session.columns = some columns := by
    rw [release_session, hcolumns]
  simp only [takeBound]
  split
  · split
    · generalize handler.release config place state = released at hreleased hkept ⊢
      obtain ⟨outcome, next⟩ := released
      cases outcome with
      | error error => exact hreleased
      | ok _ => exact takeDefaultRow_excused hkept place row.withoutMark
    · exact excused_refuse (by simp) state
  · exact takeDataRow_excused hcolumns place row

theorem perform_excused (handler : Handler η) (config : MappingConfig) (call : SinkCall)
    (state : MappingState η) : handler.Excused ((handler.sink config).perform call state) := by
  cases call with
  | start source options => exact excused_ok () _
  | finish place => exact release_excused handler config place state
  | row row place =>
      simp only [Sink.perform, sink, takeRow]
      cases hcolumns : state.session.columns with
      | some columns => exact takeBound_excused hcolumns row place
      | none =>
          have hbinds := bindColumns_excused handler place row state
          have hbound := bindColumns_columns handler place row state
          generalize handler.bindColumns place row state = bound at hbinds hbound ⊢
          obtain ⟨outcome, next⟩ := bound
          cases outcome with
          | error error => exact hbinds.error
          | ok isData =>
              cases isData with
              | false => exact excused_ok () next
              | true =>
                  obtain ⟨columns, hsession⟩ := hbound true rfl
                  have hnext : next.session.columns = some columns :=
                    congrArg Session.columns hsession
                  exact takeBound_excused hnext row place

theorem session_of_bindColumns_error {place : RowPlace} {row : Row} {error : ReadFailure}
    {failed : MappingState η} (h : handler.bindColumns place row state = (.error error, failed)) :
    failed.session = state.session := by
  simp only [bindColumns] at h
  split at h <;> cases h
  rfl

/-- Whatever is done with a reader, a row is held back only together with the columns it was mapped
by. So columns stay until the next source, a row held back is handed on in the end and never
dropped, a first row that fails to bind any leaves it to the next row to do so, and no row is
ever refused because no columns are bound. -/
theorem session_sound (handler : Handler η) (config : MappingConfig) (reading : ReadingConfig)
    (uses : List (Use η)) (own : η) (table : DefaultsTable) :
    let state := handler.useAll config reading uses { handler := own, table }
    let sink := handler.sink config
    state.session.Sound ∧ handler.HandsOn config state ∧
    (∀ call arrival, handler.arrival? call state = some arrival →
      arrival.state.session.Sound ∧ handler.HandsOn config arrival.state ∧
      ∀ row, arrival.state.session.assign config row ≠ .error (.header .unbound) ∧
        (handler.released config arrival).2.session.assign config row ≠
          .error (.header .unbound)) ∧
    (∀ call, (∀ source options, call ≠ .start source options) →
      let after := (sink.perform call state).2
      (∀ columns, state.session.columns = some columns → after.session.columns = some columns) ∧
      ∀ held, state.session.held = some held →
        (∃ later, after.session.held = some later ∧ held.Grows later) ∨
        ∃ call calls, held.HandedBy call ∧
          after.calls.toList = state.calls.toList ++ call :: calls) ∧
    (∀ row place error failed, state.session.columns = none →
      handler.bindColumns place row state = (.error error, failed) →
        sink.perform (.row row place) state = (.error error, failed) ∧
        failed.session.columns = none ∧ failed.session.held = none ∧
        ∀ next place, ∃ calls, (sink.perform (.row next place) failed).2.calls.toList =
          failed.calls.toList ++ .header next :: calls) ∧
    ∀ call, handler.Excused (sink.perform call state) := by
  intro state sink
  have hsound : state.session.Sound :=
    useAll_sound handler config reading uses (Session.sound_of_held_eq_none rfl)
  refine ⟨hsound, handsOn handler config hsound, ?_, ?_, ?_,
    fun call => perform_excused handler config call state⟩
  · intro call arrival ha
    have hmet := arrival?_sound hsound ha
    have hbound : arrival.state.session.columns = some arrival.columns :=
      (arrival?_eq_some config ha).2.1
    exact ⟨hmet, handsOn handler config hmet, fun row =>
      ⟨Session.assign_ne_unbound hbound config row,
        Session.assign_ne_unbound ((released_columns arrival).trans hbound) config row⟩⟩
  · exact fun call hcall => ⟨fun columns hcolumns => perform_columns handler config hcall hcolumns,
      fun held hheld => held_or_handed hcall hsound hheld⟩
  · intro row place error failed hcolumns hfails
    have hsession := session_of_bindColumns_error hfails
    have hunbound : failed.session.columns = none := by rw [hsession, hcolumns]
    refine ⟨?_, hunbound, ?_, offered_of_unbound handler config hunbound⟩
    · simp only [sink, Sink.perform, Handler.sink, takeRow, hcolumns, hfails]
    · rw [hsession]
      exact hsound.held_eq_none hcolumns

theorem session_sound_aborted :
    let sink := lenient.sink .takingDefaults
    let read : Use Unit := .read "a.csv" {} (.ofText "id,v,*x\na,1,2\nb\n")
    let place : RowPlace := ⟨"b.csv", 1, false⟩
    let aborted := lenient.useAll .takingDefaults {} [read] { handler := () }
    let started := lenient.useAll .takingDefaults {} [read, .perform (.start "b.csv" {})]
      { handler := () }
    let failed := (lenient.bindColumns place ["id", "id"] started).2
    (∃ held columns, aborted.session.held = some held ∧ aborted.session.columns = some columns ∧
      held.Under columns ∧ held.groups = 1 ∧
      (sink.perform (.finish place) aborted).2.session.columns = some columns ∧
      (∃ call calls, held.HandedBy call ∧ (sink.perform (.finish place) aborted).2.calls.toList =
        aborted.calls.toList ++ call :: calls) ∧
      lenient.HandsOn .takingDefaults (Arrival.mk ["c", "", ""] place aborted).state) ∧
    failed.session.held = none ∧
    ∃ calls, (sink.perform (.row ["id"] place) failed).2.calls.toList =
      failed.calls.toList ++ .header ["id"] :: calls := by
  intro sink read place aborted started failed
  obtain ⟨hsound, -, harrivals, hcalls, -, -⟩ :=
    session_sound lenient .takingDefaults {} [read] () {}
  obtain ⟨-, -, -, -, hfails, -⟩ :=
    session_sound lenient .takingDefaults {} [read, .perform (.start "b.csv" {})] () {}
  have hheld : (aborted.session.held.map HeldRow.groups) = some 1 := by decide +kernel
  obtain ⟨held, hheld, hgroups⟩ := Option.map_eq_some_iff.1 hheld
  obtain ⟨columns, hcolumns, hunder⟩ := hsound held hheld
  obtain ⟨hkept, hhanded⟩ := hcalls (.finish place) (by simp)
  have hgone : (sink.perform (.finish place) aborted).2.session.held = none := by decide +kernel
  have harrival : lenient.arrival? (.row ["c", "", ""] place) aborted =
      some ⟨["c", "", ""], place, aborted⟩ := by
    have hbound : aborted.session.columns = some columns := hcolumns
    simp [arrival?, hbound]
  obtain ⟨-, -, hunbound, hnext⟩ := hfails ["id", "id"] place
    (.refused "b.csv" 1 (.header (.duplicateName "id"))) failed (by decide +kernel)
    (Prod.ext (by decide +kernel) rfl)
  refine ⟨⟨held, columns, hheld, hcolumns, hunder, hgroups, hkept columns hcolumns, ?_,
    (harrivals _ _ harrival).2.1⟩, hunbound, hnext ["id"] place⟩
  obtain ⟨later, hlater, -⟩ | hcall := hhanded held hheld
  · exact absurd (hgone.symm.trans hlater) (by simp)
  · exact hcall

end Handler

end DefinitionFiles
