import DefinitionFiles.Mapping.Sink
import DefinitionFiles.Proofs.Columns.Dealing
import DefinitionFiles.Proofs.Reading.Script

namespace DefinitionFiles

variable {η : Type}

/-- A row as it comes to bound columns, with the state it meets. -/
structure Arrival (η : Type) where
  row : Row
  place : RowPlace
  state : MappingState η

namespace Arrival

def placed (arrival : Arrival η) : PlacedRow := ⟨arrival.row, arrival.place⟩

def columns (arrival : Arrival η) : Columns := arrival.state.session.columns.getD ⟨[], []⟩

def context (arrival : Arrival η) : RecordContext :=
  arrival.state.session.context arrival.columns arrival.place

def fields (arrival : Arrival η) : Row :=
  if arrival.row.isDefault then arrival.row.withoutMark else arrival.row

def assigned (arrival : Arrival η) (config : MappingConfig) : Except ShapeFault RecordParts :=
  arrival.columns.assign config.width arrival.fields

def parts (arrival : Arrival η) (config : MappingConfig) : RecordParts :=
  match arrival.assigned config with
  | .ok parts => parts
  | .error _ => ⟨∅, []⟩

def Fits (arrival : Arrival η) (config : MappingConfig) : Prop :=
  arrival.assigned config = .ok (arrival.parts config)

def joining (arrival : Arrival η) (config : MappingConfig) : List Record :=
  (arrival.parts config).main :: (arrival.parts config).subs

variable {arrival : Arrival η} {config : MappingConfig}

theorem parts_eq (h : arrival.Fits config) :
    arrival.parts config =
      ⟨Record.ofFields arrival.columns.main arrival.fields, dropBlankEnd Record.isBlank
        (Columns.deal arrival.columns.groups (arrival.fields.drop arrival.columns.main.length))⟩ := by
  simp only [Fits, assigned, Columns.assign] at h
  split at h
  · exact (Except.ok.inj h).symm
  · cases h

theorem mem_parts_main (h : arrival.Fits config) {name : String} :
    name ∈ (arrival.parts config).main ↔ name ∈ arrival.columns.main := by
  rw [parts_eq h]
  exact Record.mem_ofFields

theorem group_of_parts_subs (h : arrival.Fits config) {i : Nat} {sub : Record}
    (hsub : (arrival.parts config).subs[i]? = some sub) :
    ∃ group, arrival.columns.groups[i]? = some group ∧ ∀ name, name ∈ sub ↔ name ∈ group := by
  rw [parts_eq h] at hsub
  exact Columns.getElem?_deal (getElem?_of_dropBlankEnd hsub)

end Arrival

inductive RowKind
  | primary
  | continuation
  | default
deriving DecidableEq, Repr

namespace Handler

variable (handler : Handler η) (config : MappingConfig)

def kind (arrival : Arrival η) : RowKind :=
  if arrival.row.isDefault then .default
  else if handler.continues (arrival.parts config).main arrival.context arrival.state.handler then
    .continuation
  else .primary

def released (arrival : Arrival η) : SessionStep η Unit :=
  handler.release config arrival.place arrival.state

def registers (arrival : Arrival η) : Bool :=
  arrival.row.isDefault && config.takesDefaults &&
    (handler.released config arrival).1.isOk && (arrival.assigned config).isOk

end Handler

structure Registration where
  category : String
  parts : RecordParts
  ctx : RecordContext

def Registration.stated (registration : Registration) : Defaults :=
  .stated registration.parts.main registration.parts.subs

namespace Handler

variable (handler : Handler η) (config : MappingConfig)

def registration (arrival : Arrival η) : Registration :=
  let parts := arrival.parts config
  let keyed := parts.main.fill arrival.state.session.fileDefaults
  ⟨handler.category keyed arrival.context (handler.released config arrival).2.handler, parts,
    arrival.context⟩

def registeredEntry (arrival : Arrival η) : Defaults :=
  let registration := handler.registration config arrival
  arrival.state.table.merged registration.category registration.stated

def defaultsCall (arrival : Arrival η) : HookCall :=
  .defaults (handler.registration config arrival).category
    (handler.registeredEntry config arrival) arrival.context

def registered (arrival : Arrival η) : MappingState η :=
  let registration := handler.registration config arrival
  let entry := handler.registeredEntry config arrival
  let state := (handler.released config arrival).2
  let place := arrival.place
  let state := { state with table := state.table.merge registration.category registration.stated }
  let state := state.report
    (.registered place.source place.line registration.category entry.base.size)
  (state.call (handler.defaultsCall config arrival)).withHandler
    (handler.takeDefaults registration.category entry arrival.context state.handler).2

def heldRow (primary : Arrival η) (continuations : List (Arrival η)) : HeldRow :=
  let parts := primary.parts config
  ⟨parts.main, parts.subs ++ continuations.flatMap (·.joining config), parts.subs.length,
    primary.place.line⟩

/-- All that can become of a row under bound columns. -/
inductive Takes (arrival : Arrival η) : Except ReadFailure Unit → MappingState η → Prop
  | refused (error : ReadFailure) (h : handler.registers config arrival = false) :
      Takes arrival (.error error) arrival.state
  | unreleased (error : ReadFailure) (h : handler.registers config arrival = false)
      (hkind : handler.kind config arrival ≠ .continuation) :
      Takes arrival (.error error) (handler.released config arrival).2
  | joined (held : HeldRow) (hkind : handler.kind config arrival = .continuation)
      (hfits : arrival.Fits config) (hheld : arrival.state.session.held = some held) :
      Takes arrival (.ok ()) (arrival.state.hold
        (some { held with subs := held.subs ++ arrival.joining config }))
  | replaced (hkind : handler.kind config arrival = .primary) (hfits : arrival.Fits config)
      (hreleased : (handler.released config arrival).1 = .ok ()) :
      Takes arrival (.ok ()) ((handler.released config arrival).2.hold
        (some (heldRow config arrival [])))
  | registered (outcome : Except ReadFailure Unit) (hkind : handler.kind config arrival = .default)
      (h : handler.registers config arrival = true) (hfits : arrival.Fits config) :
      Takes arrival outcome (handler.registered config arrival)

theorem release_of_none {place : RowPlace} {state : MappingState η} (h : state.session.held = none) :
    handler.release config place state = (.ok (), state) := by
  simp [release, h]

theorem filled_session (ctx : RecordContext) (state : MappingState η) (held : HeldRow) :
    (handler.filled ctx state held).1.session = state.session := by
  simp only [filled]
  split <;> rfl

theorem filled_table (ctx : RecordContext) (state : MappingState η) (held : HeldRow) :
    (handler.filled ctx state held).1.table = state.table := by
  simp only [filled]
  split <;> rfl

theorem release_session (place : RowPlace) (state : MappingState η) :
    (handler.release config place state).2.session = { state.session with held := none } := by
  simp only [release]
  split
  · rename_i h
    rw [← h]
  · split
    · rfl
    · split <;> simp [MappingState.call, MappingState.withHandler, MappingState.hold, filled_session]

theorem release_table (place : RowPlace) (state : MappingState η) :
    (handler.release config place state).2.table = state.table := by
  simp only [release]
  split
  · rfl
  · split
    · rfl
    · split <;> simp [MappingState.call, MappingState.withHandler, MappingState.hold, filled_table]

theorem takeDefaultRow_takes {arrival : Arrival η}
    (hcolumns : arrival.state.session.columns = some arrival.columns)
    (hmark : arrival.row.isDefault = true) (hconfig : config.takesDefaults = true)
    (hreleased : (handler.released config arrival).1 = .ok ()) :
    let step := handler.takeDefaultRow config arrival.place arrival.row.withoutMark
      (handler.released config arrival).2
    handler.Takes config arrival step.1 step.2 := by
  have hassigned : arrival.assigned config =
      arrival.columns.assign config.width arrival.row.withoutMark := by
    simp [Arrival.assigned, Arrival.fields, hmark]
  have hsession : (handler.released config arrival).2.session =
      { arrival.state.session with held := none } := handler.release_session config _ _
  have htable : (handler.released config arrival).2.table = arrival.state.table :=
    handler.release_table config _ _
  have hctx : (handler.released config arrival).2.session.context arrival.columns arrival.place =
      arrival.context := by
    rw [hsession]
    rfl
  have hfile : (handler.released config arrival).2.session.fileDefaults =
      arrival.state.session.fileDefaults := by
    rw [hsession]
  have hkind : handler.kind config arrival = .default := by simp [kind, hmark]
  cases ha : arrival.assigned config with
  | error fault =>
      simp only [takeDefaultRow, Session.assign, hsession, hcolumns, ← hassigned, ha]
      refine .unreleased _ ?_ (by simp [hkind])
      simp [registers, ha, Except.isOk, Except.toBool]
  | ok parts =>
      have hregisters : handler.registers config arrival = true := by
        simp [registers, hmark, hconfig, hreleased, ha, Except.isOk, Except.toBool]
      obtain rfl : arrival.parts config = parts := by simp [Arrival.parts, ha]
      have hassign : (handler.released config arrival).2.session.assign config
          arrival.row.withoutMark = .ok (arrival.columns, arrival.parts config) := by
        simp [Session.assign, hsession, hcolumns, ← hassigned, ha]
      simp only [takeDefaultRow, hassign, hctx, hfile, htable]
      have hstep := Takes.registered
        ((handler.takeDefaults (handler.registration config arrival).category
          (handler.registeredEntry config arrival) arrival.context
          (handler.released config arrival).2.handler).1.mapError arrival.place.refuse)
        hkind hregisters ha
      simp only [registered, htable] at hstep
      exact hstep

theorem takeDataRow_takes {arrival : Arrival η}
    (hcolumns : arrival.state.session.columns = some arrival.columns)
    (hmark : arrival.row.isDefault = false) :
    let step := handler.takeDataRow config arrival.place arrival.row arrival.state
    handler.Takes config arrival step.1 step.2 := by
  have hassigned : arrival.assigned config = arrival.columns.assign config.width arrival.row := by
    simp [Arrival.assigned, Arrival.fields, hmark]
  have hregisters : handler.registers config arrival = false := by simp [registers, hmark]
  cases ha : arrival.assigned config with
  | error fault =>
      simp only [takeDataRow, Session.assign, hcolumns, ← hassigned, ha]
      exact .refused _ hregisters
  | ok parts =>
      have hparts : arrival.parts config = parts := by simp [Arrival.parts, ha]
      have hfits : arrival.Fits config := by simp [Arrival.Fits, hparts, ha]
      simp only [takeDataRow, Session.assign, hcolumns, ← hassigned, ha]
      by_cases hc : handler.continues parts.main
          (arrival.state.session.context arrival.columns arrival.place) arrival.state.handler = true
      · have hkind : handler.kind config arrival = .continuation := by
          simp [kind, hmark, hparts, Arrival.context, hc]
        simp only [hc, if_true]
        cases hh : arrival.state.session.held with
        | none => exact .refused _ hregisters
        | some held =>
            have h := Takes.joined held hkind hfits hh
            simpa only [Arrival.joining, hparts] using h
      · have hkind : handler.kind config arrival = .primary := by
          simp [kind, hmark, hparts, Arrival.context, hc]
        simp only [hc, Bool.false_eq_true, if_false]
        cases hr : handler.released config arrival with
        | mk outcome state =>
            have hrelease : handler.release config arrival.place arrival.state = (outcome, state) := hr
            have hstate : state = (handler.released config arrival).2 := by rw [hr]
            rw [hrelease, hstate]
            cases outcome with
            | error error => exact .unreleased _ hregisters (by simp [hkind])
            | ok _ =>
                have h := Takes.replaced hkind hfits (by rw [hr])
                simpa [heldRow, hparts] using h

theorem takeBound_takes {arrival : Arrival η}
    (hcolumns : arrival.state.session.columns = some arrival.columns) :
    let taken := handler.takeBound config arrival.row arrival.place arrival.state
    handler.Takes config arrival taken.outcome taken.state := by
  intro taken
  by_cases hmark : arrival.row.isDefault = true
  · by_cases hconfig : config.takesDefaults = true
    · cases hr : handler.released config arrival with
      | mk outcome state =>
          have hrelease : handler.release config arrival.place arrival.state = (outcome, state) := hr
          cases outcome with
          | error error =>
              have ht : taken = ⟨.error error, arrival.row, (handler.released config arrival).2⟩ := by
                simp [taken, takeBound, hmark, hconfig, hrelease, hr]
              rw [ht]
              exact .unreleased _ (by simp [registers, hr, Except.isOk, Except.toBool])
                (by simp [kind, hmark])
          | ok _ =>
              have h := takeDefaultRow_takes handler config hcolumns hmark hconfig (by rw [hr])
              simpa [taken, takeBound, hmark, hconfig, hrelease, hr] using h
    · have ht : taken = ⟨.error (arrival.place.refuse .defaultsUnsupported), arrival.row,
          arrival.state⟩ := by simp [taken, takeBound, hmark, hconfig]
      rw [ht]
      exact .refused _ (by simp [registers, hconfig])
  · have h := takeDataRow_takes handler config hcolumns (by simpa using hmark)
    simpa [taken, takeBound, hmark] using h

variable {handler : Handler η} {config : MappingConfig}

theorem released_table (arrival : Arrival η) :
    (handler.released config arrival).2.table = arrival.state.table :=
  handler.release_table config _ _

theorem session_of_takes {arrival : Arrival η} {outcome : Except ReadFailure Unit}
    {after : MappingState η} (h : handler.Takes config arrival outcome after) :
    after.session = { arrival.state.session with held := after.session.held } := by
  have hr := handler.release_session config arrival.place arrival.state
  have hreleased : (handler.released config arrival).2.session =
      { arrival.state.session with held := none } := hr
  cases h with
  | refused _ _ => rfl
  | unreleased _ _ _ => simp [hreleased]
  | joined _ _ _ _ => rfl
  | replaced _ _ _ => simp [MappingState.hold, hreleased]
  | registered _ _ _ _ => simp [registered, MappingState.call, MappingState.report,
      MappingState.withHandler, hreleased]

theorem columns_of_takes {arrival : Arrival η} {outcome : Except ReadFailure Unit}
    {after : MappingState η} (h : handler.Takes config arrival outcome after) :
    after.session.columns = arrival.state.session.columns := by
  rw [session_of_takes h]

end Handler

end DefinitionFiles
