import DefinitionFiles.Reading.Source
import DefinitionFiles.Row.Buffers

namespace DefinitionFiles

variable {σ : Type}

/-- A reader of sources, as the sources read so far leave it. -/
structure SourceReader (σ : Type) where
  config : ReadingConfig := {}
  buffers : RowBuffers := {}
  state : σ

structure ReaderStep (σ : Type) where
  outcome : Except ReadFailure Bool
  row : Row
  position : FeedPosition
  reader : SourceReader σ

namespace SourceReader

def readRow (sink : Sink σ) (source : String) (verbose : Bool) (row : Row)
    (position : FeedPosition) (reader : SourceReader σ) : ReaderStep σ :=
  let limits := reader.config.limits
  let read := nextRow limits reader.buffers row position
  let step := sink.accept source verbose (read.rowRead limits) reader.state
  ⟨step.outcome, step.row, read.position,
    { reader with buffers := read.buffers, state := step.state }⟩

theorem readRow_feed_lt {sink : Sink σ} {source : String} {verbose : Bool} {row : Row}
    {position : FeedPosition} {reader : SourceReader σ}
    (h : (reader.readRow sink source verbose row position).outcome = .ok true) :
    (reader.readRow sink source verbose row position).position.feed.length <
      position.feed.length :=
  readRowInto_feed_lt (Sink.outcome_of_accept h)

/-- Reads rows into a sink as `Sink.readRows` does. Each row is read into the row that the sink has
left of the one before. -/
def readRows (sink : Sink σ) (source : String) (verbose : Bool) (rows : Nat) (row : Row)
    (position : FeedPosition) (reader : SourceReader σ) :
    Except ReadFailure Nat × FeedPosition × SourceReader σ :=
  let step := reader.readRow sink source verbose row position
  match h : step.outcome with
  | .error error => (.error error, step.position, step.reader)
  | .ok false => (.ok rows, step.position, step.reader)
  | .ok true =>
      let rows := if step.row.isEmpty then rows else rows + 1
      readRows sink source verbose rows step.row step.position step.reader
termination_by position.feed.length
decreasing_by exact readRow_feed_lt h

def readToEnd (sink : Sink σ) (source : String) (options : SourceOptions) (feed : Feed)
    (reader : SourceReader σ) : Except ReadFailure SourceSummary × SourceReader σ :=
  match sink.start source options reader.state with
  | (.error error, state) => (.error error, { reader with state })
  | (.ok (), state) =>
      match readRows sink source options.verbose 0 [] { feed } { reader with state } with
      | (.error error, _, reader) => (.error error, reader)
      | (.ok rows, position, reader) =>
          match sink.finish ⟨source, position.line, options.verbose⟩ reader.state with
          | (.error error, state) => (.error error, { reader with state })
          | (.ok (), state) =>
              (.ok { fingerprint := position.fingerprint, rows }, { reader with state })

def readSource (sink : Sink σ) (source : String) (options : SourceOptions) (feed : Feed)
    (reader : SourceReader σ) : SourceRead (SourceReader σ) :=
  let (outcome, reader) := reader.readToEnd sink source options feed
  ⟨outcome, reader, some (readEvent source options.verbose outcome)⟩

end SourceReader

end DefinitionFiles
