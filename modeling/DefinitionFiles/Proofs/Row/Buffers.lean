import DefinitionFiles.Proofs.Reading.Script
import DefinitionFiles.Row.Buffers

namespace DefinitionFiles

namespace Feed

theorem takeLine_eq (length : Nat) (bytes : Array UInt8) (feed : Feed) :
    feed.takeLine length bytes =
      let taken := feed.takeBytes #[] length
      ⟨taken.read 0, taken.bytes, taken.rest⟩ := by
  simp [takeLine]

/-- What is taken makes up the first line, however much of the rest of the feed comes after it. -/
theorem takeBytes_reads (length : Nat) (bytes : Array UInt8) (room : Nat) (feed : Feed) :
    let taken := feed.takeBytes bytes room
    (taken.read 0 = none → taken.rest = []) ∧
      ∃ used, feed = used ++ taken.rest ∧ ∀ more : Feed, more <+: taken.rest →
        (readsFrom length #[] bytes.toList.reverse room (used ++ more)).toList =
          (taken.read 0).toList ++ more.reads length := by
  induction feed generalizing bytes room with
  | nil =>
      refine ⟨fun _ => rfl, [], rfl, fun more hmore => ?_⟩
      obtain rfl := List.prefix_nil.1 hmore
      by_cases hb : bytes = #[] <;> simp [takeBytes, BytesTaken.read, readsFrom, reads, hb]
  | cons signal rest ih =>
      cases signal with
      | failure reason =>
          refine ⟨fun h => by simp [takeBytes, BytesTaken.read] at h, [.failure reason], rfl,
            fun more _ => ?_⟩
          rw [List.singleton_append, readsFrom, readsFrom_toList]
          rfl
      | interruption =>
          obtain ⟨hend, used, hfeed, hreads⟩ := ih bytes room
          exact ⟨hend, .interruption :: used, congrArg _ hfeed, hreads⟩
      | byte value =>
          simp only [takeBytes]
          split
          · rename_i hlast
            refine ⟨fun h => by simp [BytesTaken.read] at h, [.byte value], rfl, fun more _ => ?_⟩
            rw [List.singleton_append, readsFrom, if_pos hlast, readsFrom_toList]
            simp [BytesTaken.read, reads]
          · rename_i hmore
            obtain ⟨hend, used, hfeed, hreads⟩ := ih (bytes.push value) (room - 1)
            refine ⟨hend, .byte value :: used, congrArg _ hfeed, fun more hprefix => ?_⟩
            rw [List.cons_append, readsFrom, if_neg hmore, ← hreads more hprefix]
            simp

theorem takeLine_reads (length : Nat) (bytes : Array UInt8) (feed : Feed) :
    let taken := feed.takeLine length bytes
    (taken.read = none → taken.rest = []) ∧
      ∃ used, feed = used ++ taken.rest ∧ ∀ more : Feed, more <+: taken.rest →
        (used ++ more).reads length = taken.read.toList ++ more.reads length := by
  rw [takeLine_eq]
  exact takeBytes_reads length #[] length feed

theorem reads_of_takeLine_none {length : Nat} {bytes : Array UInt8} {feed : Feed}
    (h : (feed.takeLine length bytes).read = none) :
    feed.reads length = [] ∧ (feed.takeLine length bytes).rest = [] := by
  obtain ⟨hend, used, hfeed, hreads⟩ := takeLine_reads length bytes feed
  have hrest := hend h
  have hall := hreads _ (List.prefix_refl _)
  rw [← hfeed, h, hrest] at hall
  exact ⟨hall, hrest⟩

theorem used_of_takeLine_some {length : Nat} {bytes : Array UInt8} {feed : Feed} {read : LineRead}
    (h : (feed.takeLine length bytes).read = some read) :
    let rest := (feed.takeLine length bytes).rest
    ∃ used, feed = used ++ rest ∧ ∀ more : Feed, more <+: rest →
      (used ++ more).reads length = read :: more.reads length := by
  obtain ⟨-, used, hfeed, hreads⟩ := takeLine_reads length bytes feed
  rw [h] at hreads
  exact ⟨used, hfeed, hreads⟩

theorem reads_of_takeLine_some {length : Nat} {bytes : Array UInt8} {feed : Feed} {read : LineRead}
    (h : (feed.takeLine length bytes).read = some read) :
    feed.reads length = read :: (feed.takeLine length bytes).rest.reads length := by
  obtain ⟨used, hfeed, hreads⟩ := used_of_takeLine_some h
  have hall := hreads _ (List.prefix_refl _)
  rwa [← hfeed] at hall

end Feed

variable {limits : Limits} {bytes : Array UInt8} {split : Split} {joined : Nat}
  {position : FeedPosition}

theorem readRowInto_of_none {taken : LineTaken}
    (ht : position.feed.takeLine limits.readLength bytes = taken) (h : taken.read = none) :
    readRowInto limits bytes split joined position =
      ⟨split.atEnd, split.row, ⟨taken.bytes, split.text⟩, { position with feed := taken.rest }⟩ := by
  subst ht
  rw [readRowInto]
  split
  · rfl
  · rename_i hs
    cases h.symm.trans hs

theorem readRowInto_of_some {taken : LineTaken} {read : LineRead}
    (ht : position.feed.takeLine limits.readLength bytes = taken) (h : taken.read = some read) :
    readRowInto limits bytes split joined position =
      let shown := read.shown limits
      let behind := position.after shown taken.rest
      match split.step limits joined position.line shown with
      | .onward next => readRowInto limits taken.bytes next (joined + 1) behind
      | .ended outcome left => ⟨outcome, left.row, ⟨taken.bytes, left.text⟩, behind⟩ := by
  subst ht
  rw [readRowInto]
  split
  · rename_i hn
    cases h.symm.trans hn
  · rename_i hs
    cases h.symm.trans hs
    rfl

theorem readRowInto_bytes (limits : Limits) (bytes other : Array UInt8) (split : Split)
    (joined : Nat) (position : FeedPosition) :
    readRowInto limits bytes split joined position =
      readRowInto limits other split joined position := by
  have htaken : position.feed.takeLine limits.readLength bytes =
      position.feed.takeLine limits.readLength other := by rw [Feed.takeLine_eq, Feed.takeLine_eq]
  cases h : (position.feed.takeLine limits.readLength other).read with
  | none => rw [readRowInto_of_none htaken h, readRowInto_of_none rfl h]
  | some read => rw [readRowInto_of_some htaken h, readRowInto_of_some rfl h]

/-- Reading into buffers gives what reading the lines of the feed gives. -/
theorem readRowInto_rowRead (limits : Limits) (bytes : Array UInt8) (split : Split) (joined : Nat)
    (position : FeedPosition) :
    (readRowInto limits bytes split joined position).rowRead limits =
      readRowFrom limits split joined position.line position.fingerprint
        (position.feed.reads limits.readLength) := by
  fun_induction readRowInto limits bytes split joined position with
  | case1 bytes split joined position taken h =>
      obtain ⟨hreads, hrest⟩ := Feed.reads_of_takeLine_none h
      rw [hreads]
      simp only [BufferedRead.rowRead, FeedPosition.lines, taken, hrest]
      rfl
  | case2 bytes split joined position taken read h shown behind next hstep ih =>
      rw [Feed.reads_of_takeLine_some h, readRowFrom, hstep]
      exact ih
  | case3 bytes split joined position taken read h shown behind outcome left hstep =>
      rw [Feed.reads_of_takeLine_some h, readRowFrom, hstep]
      rfl

/-- A first part of the feed is used, and its lines are all that is gone from those of the feed. -/
theorem readRowInto_used (limits : Limits) (bytes : Array UInt8) (split : Split) (joined : Nat)
    (position : FeedPosition) :
    let left := (readRowInto limits bytes split joined position).position.feed
    ∃ used, position.feed = used ++ left ∧
      position.feed.reads limits.readLength =
        Feed.reads limits.readLength used ++ left.reads limits.readLength := by
  fun_induction readRowInto limits bytes split joined position with
  | case1 bytes split joined position taken h =>
      obtain ⟨hreads, hrest⟩ := Feed.reads_of_takeLine_none h
      refine ⟨position.feed, ?_, ?_⟩
      · rw [hrest, List.append_nil]
      · rw [hrest]
        exact (List.append_nil _).symm
  | case2 bytes split joined position taken read h shown behind next hstep ih =>
      obtain ⟨later, hfeed, hlater⟩ := ih
      obtain ⟨used, hused, hreads⟩ := Feed.used_of_takeLine_some h
      refine ⟨used ++ later, ?_, ?_⟩
      · rw [List.append_assoc, ← hfeed]
        exact hused
      · have hfirst := hreads later ⟨_, hfeed.symm⟩
        rw [hfirst, List.cons_append, ← hlater]
        exact Feed.reads_of_takeLine_some h
  | case3 bytes split joined position taken read h shown behind outcome left hstep =>
      obtain ⟨used, hused, hreads⟩ := Feed.used_of_takeLine_some h
      refine ⟨used, hused, ?_⟩
      have hfirst := hreads [] List.nil_prefix
      rw [List.append_nil] at hfirst
      rw [hfirst]
      exact Feed.reads_of_takeLine_some h

theorem readRowInto_end
    (h : (readRowInto limits bytes split joined position).outcome = .ok false) :
    (readRowInto limits bytes split joined position).position = { position with feed := [] } := by
  have hrow := congrArg RowRead.outcome (readRowInto_rowRead limits bytes split joined position)
  obtain ⟨hreads, -⟩ := readRowFrom_eq_end (hrow.symm.trans h)
  cases hread : (position.feed.takeLine limits.readLength bytes).read with
  | none => rw [readRowInto_of_none rfl hread, (Feed.reads_of_takeLine_none hread).2]
  | some read =>
      rw [Feed.reads_of_takeLine_some hread] at hreads
      cases hreads

/-- Nothing that buffers and row hold before a row is read has a part in it. -/
theorem nextRow_leftovers (limits : Limits) (buffers : RowBuffers) (row : Row)
    (position : FeedPosition) : nextRow limits buffers row position = nextRow limits {} [] position :=
  readRowInto_bytes limits buffers.bytes #[] {} 0 position

theorem nextRow_rowRead (limits : Limits) (buffers : RowBuffers) (row : Row)
    (position : FeedPosition) :
    (nextRow limits buffers row position).rowRead limits =
      readLogicalRow limits (position.lines limits) := by
  rw [nextRow_leftovers]
  exact readRowInto_rowRead limits #[] {} 0 position

theorem nextRow_end {limits : Limits} {buffers : RowBuffers} {row : Row} {position : FeedPosition}
    (h : (nextRow limits buffers row position).outcome = .ok false) :
    (nextRow limits buffers row position).position = { position with feed := [] } :=
  readRowInto_end h

theorem nextRow_used (limits : Limits) (buffers : RowBuffers) (row : Row)
    (position : FeedPosition) :
    let left := (nextRow limits buffers row position).position.feed
    ∃ used, position.feed = used ++ left ∧
      position.feed.reads limits.readLength =
        Feed.reads limits.readLength used ++ left.reads limits.readLength := by
  rw [nextRow_leftovers]
  exact readRowInto_used limits #[] {} 0 position

end DefinitionFiles
