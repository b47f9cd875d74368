import DefinitionFiles.Proofs.Mapping.Delivery

namespace DefinitionFiles

variable {η : Type} {handler : Handler η} {config : MappingConfig}

namespace Handler

def hear (handler : Handler η) (own : η) : HookCall → η
  | .fileName _ => own
  | .header row => (handler.readHeader row own).2
  | .record main subs ctx => (handler.takeRecord main subs ctx own).2
  | .defaults category entry ctx => (handler.takeDefaults category entry ctx own).2

/-- Between two states the handler was handed more calls, and what it came to is what these made
of it. -/
def Hears (handler : Handler η) (before after : MappingState η) : Prop :=
  ∃ calls, after.calls.toList = before.calls.toList ++ calls ∧
    after.handler = calls.foldl handler.hear before.handler

namespace Hears

variable {first second third : MappingState η}

theorem silent (hcalls : second.calls = first.calls) (hown : second.handler = first.handler) :
    handler.Hears first second :=
  ⟨[], by simp [hcalls], hown⟩

theorem single {call : HookCall} (hcalls : second.calls = first.calls.push call)
    (hown : second.handler = handler.hear first.handler call) : handler.Hears first second :=
  ⟨[call], by simp [hcalls], hown⟩

theorem trans (h : handler.Hears first second) (h' : handler.Hears second third) :
    handler.Hears first third := by
  obtain ⟨calls, hcalls, hown⟩ := h
  obtain ⟨more, hmore, hown'⟩ := h'
  refine ⟨calls ++ more, ?_, ?_⟩
  · rw [hmore, hcalls, List.append_assoc]
  · rw [hown', hown, List.foldl_append]

end Hears

theorem filled_handler (ctx : RecordContext) (state : MappingState η) (held : HeldRow) :
    (handler.filled ctx state held).1.handler = state.handler := by
  simp only [filled]
  split <;> rfl

theorem handed_handler (ctx : RecordContext) (state : MappingState η) (held : HeldRow) :
    (handler.handed config ctx state held).1.handler = state.handler := by
  simp only [handed]
  split
  · exact filled_handler ctx state held
  · rfl

theorem release_hears (place : RowPlace) (state : MappingState η) :
    handler.Hears state (handler.release config place state).2 := by
  obtain h | ⟨held, columns, -, -, h⟩ := release_cases handler config place state <;> rw [h]
  · exact .silent rfl rfl
  · refine .single (congrArg (Array.push · _) (handed_calls _ _ held)) ?_
    exact congrArg (handler.takeRecord _ _ _ · |>.2) (handed_handler _ _ held)

theorem start_hears (source : String) (options : SourceOptions) (state : MappingState η) :
    handler.Hears state (handler.start source options state) := by
  simp only [start]
  split <;> exact .single rfl rfl

theorem bindColumns_hears (place : RowPlace) (row : Row) (state : MappingState η) :
    handler.Hears state (handler.bindColumns place row state).2 := by
  simp only [bindColumns]
  split <;> exact .single rfl rfl

theorem takes_hears {arrival : Arrival η} {outcome : Except ReadFailure Unit}
    {after : MappingState η} (h : handler.Takes config arrival outcome after) :
    handler.Hears arrival.state after := by
  have hreleased : handler.Hears arrival.state (handler.released config arrival).2 :=
    release_hears _ _
  cases h with
  | refused error _ => exact .silent rfl rfl
  | unreleased error _ _ => exact hreleased
  | joined held _ _ _ => exact .silent rfl rfl
  | replaced _ _ _ => exact hreleased.trans (.silent rfl rfl)
  | registered _ _ _ _ => exact hreleased.trans (.single rfl rfl)

theorem arrival?_hears {call : SinkCall} {state : MappingState η} {arrival : Arrival η}
    (h : handler.arrival? call state = some arrival) : handler.Hears state arrival.state := by
  rcases state_of_arrival? h with hs | ⟨-, hs⟩ <;> rw [hs]
  · exact .silent rfl rfl
  · exact bindColumns_hears _ _ state

theorem perform_hears (handler : Handler η) (config : MappingConfig) (call : SinkCall)
    (state : MappingState η) : handler.Hears state ((handler.sink config).perform call state).2 := by
  cases call with
  | start source options => exact start_hears source options state
  | finish place => exact release_hears place state
  | row row place =>
      cases ha : handler.arrival? (.row row place) state with
      | none =>
          rw [perform_row_of_arrival?_none ha]
          exact bindColumns_hears place row state
      | some arrival =>
          exact (arrival?_hears ha).trans (takes_hears (takes_of_arrival? config ha))

/-- The state of a handler is what the calls it was handed made of it. -/
theorem run_hears (handler : Handler η) (config : MappingConfig) (calls : List SinkCall)
    (state : MappingState η) : handler.Hears state ((handler.sink config).run calls state).2 := by
  induction calls generalizing state with
  | nil => exact .silent rfl rfl
  | cons call calls ih =>
      have hperform := perform_hears handler config call state
      simp only [Sink.run]
      split
      · exact hperform
      · exact hperform.trans (ih _)

theorem readSource_hears (handler : Handler η) (config : MappingConfig) (reading : ReadingConfig)
    (source : String) (options : SourceOptions) (feed : Feed) (state : MappingState η) :
    handler.Hears state ((handler.sink config).readSource reading source options feed state).state := by
  rw [readSource_state]
  exact run_hears _ _ _ _

end Handler

end DefinitionFiles
