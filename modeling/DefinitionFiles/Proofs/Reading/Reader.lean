import DefinitionFiles.Proofs.Reading.Script
import DefinitionFiles.Proofs.Row.Buffers
import DefinitionFiles.Reading.Reader

namespace DefinitionFiles

namespace SourceReader

variable {σ : Type} (sink : Sink σ) (source : String) (verbose : Bool)

theorem readRow_eq (row : Row) (position : FeedPosition) (reader : SourceReader σ) :
    let limits := reader.config.limits
    let step := reader.readRow sink source verbose row position
    sink.readRow limits source verbose (position.lines limits) reader.state =
        ⟨step.outcome, step.row, step.position.lines limits, step.reader.state⟩ ∧
      step.reader.config = reader.config := by
  intro limits step
  refine ⟨?_, rfl⟩
  have hread := nextRow_rowRead limits reader.buffers row position
  have hposition := sink.accept_position source verbose (readLogicalRow limits (position.lines limits))
    reader.state
  rw [← hread] at hposition
  rw [Sink.readRow, ← hread]
  exact congrArg (fun position => RowStep.mk _ _ position _) hposition

theorem readRows_eq (rows : Nat) (row : Row) (position : FeedPosition) (reader : SourceReader σ) :
    let limits := reader.config.limits
    let result := readRows sink source verbose rows row position reader
    sink.readRows limits source verbose rows (position.lines limits) reader.state =
        (result.1, result.2.1.lines limits, result.2.2.state) ∧
      result.2.2.config = reader.config := by
  fun_induction readRows sink source verbose rows row position reader with
  | case1 rows row position reader step error h =>
      obtain ⟨hstep, hconfig⟩ := readRow_eq sink source verbose row position reader
      refine ⟨?_, hconfig⟩
      rw [Sink.readRows_eq, hstep, h]
  | case2 rows row position reader step h =>
      obtain ⟨hstep, hconfig⟩ := readRow_eq sink source verbose row position reader
      refine ⟨?_, hconfig⟩
      rw [Sink.readRows_eq, hstep, h]
  | case3 rows row position reader step h count ih =>
      obtain ⟨hstep, hconfig⟩ := readRow_eq sink source verbose row position reader
      obtain ⟨hrest, hkept⟩ := ih
      refine ⟨?_, hkept.trans hconfig⟩
      rw [Sink.readRows_eq, hstep, h]
      rw [show step.reader.config = reader.config from hconfig] at hrest
      exact hrest

/-- Reading a source gives what it gives without buffers, so that nothing that an earlier read has
left in them has a part in it. -/
theorem readSource_eq (options : SourceOptions) (feed : Feed) (reader : SourceReader σ) :
    let read := reader.readSource sink source options feed
    let plain := sink.readSource reader.config source options feed reader.state
    read.outcome = plain.outcome ∧ read.log = plain.log ∧ read.state.state = plain.state := by
  intro read plain
  have hend : sink.readToEnd reader.config source options feed reader.state =
      ((reader.readToEnd sink source options feed).1,
        (reader.readToEnd sink source options feed).2.state) := by
    simp only [readToEnd, Sink.readToEnd]
    rcases sink.start source options reader.state with ⟨error | _, state⟩
    · rfl
    · obtain ⟨hrows, -⟩ := readRows_eq sink source options.verbose 0 [] { feed }
        { reader with state }
      have hstart : Position.ofFeed reader.config.limits feed =
          FeedPosition.lines reader.config.limits { feed } := rfl
      simp only [hstart, hrows]
      rcases readRows sink source options.verbose 0 [] { feed } { reader with state } with
        ⟨error | count, position, after⟩
      · rfl
      · rcases h : sink.finish ⟨source, position.line, options.verbose⟩ after.state with
          ⟨error | _, state⟩ <;> simp only [FeedPosition.lines, h]
  have houtcome : read.outcome = plain.outcome := (congrArg Prod.fst hend).symm
  exact ⟨houtcome, congrArg (fun outcome => some (readEvent source options.verbose outcome)) houtcome,
    (congrArg Prod.snd hend).symm⟩

end SourceReader

end DefinitionFiles
