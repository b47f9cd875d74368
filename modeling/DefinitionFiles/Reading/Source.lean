import DefinitionFiles.FileTree
import DefinitionFiles.Reading.Log
import DefinitionFiles.Reading.Sink
import DefinitionFiles.Row.Logical

namespace DefinitionFiles

variable {σ : Type}

structure SourceSummary where
  fingerprint : Fingerprint
  /-- When a file was modified last, in seconds since 1970. -/
  modified : Option Int := none
  rows : Nat
deriving DecidableEq, Repr

def SourceSummary.modifiedSeconds (summary : SourceSummary) : Option Nat :=
  summary.modified.bind Int.toNat?

structure RowStep (σ : Type) where
  outcome : Except ReadFailure Bool
  row : Row
  position : Position
  state : σ

/-- Hands what was read to a sink; rows without fields are none of its business. -/
def Sink.accept (sink : Sink σ) (source : String) (verbose : Bool) (read : RowRead)
    (state : σ) : RowStep σ :=
  let position := read.position
  match read.outcome with
  | .error failure => ⟨.error (.ofText source position.line failure), read.row, position, state⟩
  | .ok more =>
      if read.row.isEmpty then ⟨.ok more, read.row, position, state⟩
      else
        let taken := sink.take read.row ⟨source, position.line, verbose⟩ state
        ⟨taken.outcome.map (fun _ => more), taken.row, position, taken.state⟩

def Sink.readRow (sink : Sink σ) (limits : Limits) (source : String) (verbose : Bool)
    (position : Position) (state : σ) : RowStep σ :=
  sink.accept source verbose (readLogicalRow limits position) state

theorem Sink.outcome_of_accept {sink : Sink σ} {source : String} {verbose : Bool} {read : RowRead}
    {state : σ} {more : Bool} (h : (sink.accept source verbose read state).outcome = .ok more) :
    read.outcome = .ok more := by
  simp only [accept] at h
  split at h
  · cases h
  · rename_i found hfound
    split at h
    · cases h
      exact hfound
    · cases ht : (sink.take read.row ⟨source, read.position.line, verbose⟩ state).outcome with
      | error error =>
          rw [ht] at h
          cases h
      | ok _ =>
          rw [ht] at h
          cases h
          exact hfound

theorem Sink.accept_position (sink : Sink σ) (source : String) (verbose : Bool) (read : RowRead)
    (state : σ) : (sink.accept source verbose read state).position = read.position := by
  simp only [accept]
  repeat' split
  all_goals rfl

theorem Sink.readRow_rest_lt {sink : Sink σ} {limits : Limits} {source : String}
    {verbose : Bool} {position : Position} {state : σ}
    (h : (sink.readRow limits source verbose position state).outcome = .ok true) :
    (sink.readRow limits source verbose position state).position.rest.length <
      position.rest.length := by
  rw [readRow, accept_position]
  exact readLogicalRow_rest_lt (by simp [RowRead.isEnd, outcome_of_accept h])

/-- Reads rows into a sink until the source ends or a row is refused, counting the
rows that hold fields when the sink is done with them. -/
def Sink.readRows (sink : Sink σ) (limits : Limits) (source : String) (verbose : Bool)
    (rows : Nat) (position : Position) (state : σ) : Except ReadFailure Nat × Position × σ :=
  let step := sink.readRow limits source verbose position state
  match h : step.outcome with
  | .error error => (.error error, step.position, step.state)
  | .ok false => (.ok rows, step.position, step.state)
  | .ok true =>
      let rows := if step.row.isEmpty then rows else rows + 1
      sink.readRows limits source verbose rows step.position step.state
termination_by position.rest.length
decreasing_by exact readRow_rest_lt h

structure SourceRead (σ : Type) where
  outcome : Except ReadFailure SourceSummary
  state : σ
  log : Option LogEvent

def Sink.readToEnd (sink : Sink σ) (config : ReadingConfig) (source : String)
    (options : SourceOptions) (feed : Feed) (state : σ) : Except ReadFailure SourceSummary × σ :=
  match sink.start source options state with
  | (.error error, state) => (.error error, state)
  | (.ok (), state) =>
      let start := Position.ofFeed config.limits feed
      match sink.readRows config.limits source options.verbose 0 start state with
      | (.error error, _, state) => (.error error, state)
      | (.ok rows, position, state) =>
          match sink.finish ⟨source, position.line, options.verbose⟩ state with
          | (.error error, state) => (.error error, state)
          | (.ok (), state) => (.ok { fingerprint := position.fingerprint, rows }, state)

def readEvent (source : String) (verbose : Bool) : Except ReadFailure SourceSummary → LogEvent
  | .ok summary => .read source summary.fingerprint summary.rows
  | .error failure => .failed source verbose failure

def Sink.readSource (sink : Sink σ) (config : ReadingConfig) (source : String)
    (options : SourceOptions) (feed : Feed) (state : σ) : SourceRead σ :=
  let (outcome, state) := sink.readToEnd config source options feed state
  ⟨outcome, state, some (readEvent source options.verbose outcome)⟩

def Sink.readPath (sink : Sink σ) (config : ReadingConfig) (path : String) (options : SourceOptions)
    (found : FileState) (state : σ) : SourceRead σ :=
  match found with
  | .unreadable reason => ⟨.error (.unavailable path reason), state, none⟩
  | .directory => ⟨.error (.unavailable path "is a directory"), state, none⟩
  | .file content modified =>
      let read := sink.readSource config path options content state
      { read with outcome := read.outcome.map ({ · with modified := some modified }) }

end DefinitionFiles
