import DefinitionFiles.Row.Logical

namespace DefinitionFiles

/-- What a reader of rows holds on to from row to row: the bytes of the line that it read last
and the text of the field that it was in, both as reading the row left them. -/
structure RowBuffers where
  bytes : Array UInt8 := #[]
  text : String := ""
deriving DecidableEq, Repr

structure BytesTaken where
  failure : Option String
  bytes : Array UInt8
  rest : Feed

/-- Takes the bytes of a line, `room` at most, and puts them behind those in the buffer. What
comes before a failure stays there. -/
def Feed.takeBytes (bytes : Array UInt8) (room : Nat) : Feed → BytesTaken
  | [] => ⟨none, bytes, []⟩
  | .failure reason :: rest => ⟨some reason, bytes, rest⟩
  | .interruption :: rest => takeBytes bytes room rest
  | .byte value :: rest =>
      if value = lineFeed ∨ room ≤ 1 then ⟨none, bytes.push value, rest⟩
      else takeBytes (bytes.push value) (room - 1) rest

def BytesTaken.read (held : Nat) (taken : BytesTaken) : Option LineRead :=
  match taken.failure with
  | some reason => some (.failed reason)
  | none => if taken.bytes.size = held then none else some (.line taken.bytes.toList)

structure LineTaken where
  read : Option LineRead
  bytes : Array UInt8
  rest : Feed

def Feed.takeLine (length : Nat) (bytes : Array UInt8) (feed : Feed) : LineTaken :=
  let emptied := bytes.take 0
  let taken := feed.takeBytes emptied length
  ⟨taken.read emptied.size, taken.bytes, taken.rest⟩

structure FeedPosition where
  feed : Feed
  line : Nat := 0
  fingerprint : Fingerprint := {}

def FeedPosition.after (position : FeedPosition) (shown : ShownLine) (rest : Feed) : FeedPosition :=
  ⟨rest, position.line + shown.count, shown.mark position.fingerprint⟩

def FeedPosition.lines (limits : Limits) (position : FeedPosition) : Position :=
  ⟨position.feed.reads limits.readLength, position.line, position.fingerprint⟩

structure BufferedRead where
  outcome : Except TextFailure Bool
  row : Row
  buffers : RowBuffers
  position : FeedPosition

def BufferedRead.rowRead (limits : Limits) (read : BufferedRead) : RowRead :=
  ⟨read.outcome, read.row, read.position.lines limits⟩

theorem Feed.takeBytes_rest (bytes : Array UInt8) (room : Nat) (feed : Feed) :
    (feed.takeBytes bytes room).rest.length ≤ feed.length - 1 := by
  induction feed generalizing bytes room with
  | nil => exact Nat.le_refl 0
  | cons signal rest ih =>
      have hr := fun bytes room => Nat.le_trans (ih bytes room) (Nat.sub_le rest.length 1)
      cases signal with
      | failure reason => exact Nat.le_refl _
      | interruption => exact hr bytes room
      | byte value =>
          simp only [takeBytes]
          split
          · exact Nat.le_refl _
          · exact hr _ _

theorem Feed.takeLine_rest_lt {length : Nat} {bytes : Array UInt8} {feed : Feed} {read : LineRead}
    (h : (feed.takeLine length bytes).read = some read) :
    (feed.takeLine length bytes).rest.length < feed.length := by
  cases feed with
  | nil => simp [takeLine, takeBytes, BytesTaken.read] at h
  | cons signal rest =>
      exact Nat.lt_succ_of_le (takeBytes_rest (bytes.take 0) length (signal :: rest))

/-- Reads on in a row that has come from `joined` lines, of which `split` is what there is in the
row and in the text of its next field. -/
def readRowInto (limits : Limits) (bytes : Array UInt8) (split : Split) (joined : Nat)
    (position : FeedPosition) : BufferedRead :=
  let taken := position.feed.takeLine limits.readLength bytes
  match _h : taken.read with
  | none => ⟨split.atEnd, split.row, ⟨taken.bytes, split.text⟩, { position with feed := taken.rest }⟩
  | some read =>
      let shown := read.shown limits
      let behind := position.after shown taken.rest
      match split.step limits joined position.line shown with
      | .onward next => readRowInto limits taken.bytes next (joined + 1) behind
      | .ended outcome left => ⟨outcome, left.row, ⟨taken.bytes, left.text⟩, behind⟩
termination_by position.feed.length
decreasing_by exact Feed.takeLine_rest_lt _h

theorem readRowInto_feed_lt {limits : Limits} {bytes : Array UInt8} {split : Split} {joined : Nat}
    {position : FeedPosition}
    (h : (readRowInto limits bytes split joined position).outcome = .ok true) :
    (readRowInto limits bytes split joined position).position.feed.length < position.feed.length := by
  fun_induction readRowInto limits bytes split joined position with
  | case1 bytes split joined position taken hread => exact absurd h split.atEnd_ne_ok_true
  | case2 bytes split joined position taken read hread shown behind next hstep ih =>
      exact Nat.lt_trans (ih h) (Feed.takeLine_rest_lt hread)
  | case3 bytes split joined position taken read hread shown behind outcome left hstep =>
      exact Feed.takeLine_rest_lt hread

def Split.emptied (split : Split) : Split := { split with fields := #[], text := "" }

/-- Reads the next row of a feed. The row handed in and the text held back are emptied first. -/
def nextRow (limits : Limits) (buffers : RowBuffers) (row : Row) (position : FeedPosition) :
    BufferedRead :=
  let split : Split := { fields := row.toArray, text := buffers.text }
  readRowInto limits buffers.bytes split.emptied 0 position

def nextRows (limits : Limits) (rows : Nat → Row) (buffers : RowBuffers)
    (position : FeedPosition) : Nat → BufferedRead
  | 0 => nextRow limits buffers (rows 0) position
  | n + 1 =>
      let first := nextRow limits buffers (rows 0) position
      nextRows limits (fun n => rows (n + 1)) first.buffers first.position n

end DefinitionFiles
