import DefinitionFiles.Proofs.Row.Buffers
import DefinitionFiles.Proofs.Row.Steps

namespace DefinitionFiles

open Text

namespace Feed

def parts (feed : Feed) : Nat := feed.countP (· ≠ .interruption)

theorem parts_append (feed other : Feed) : (feed ++ other).parts = feed.parts + other.parts :=
  List.countP_append

theorem length_readsFrom_le (length : Nat) (taken : List UInt8) (room : Nat) (feed : Feed) :
    (readsFrom length #[] taken room feed).toList.length ≤ taken.length + feed.parts := by
  induction feed generalizing taken room with
  | nil =>
      cases taken with
      | nil => exact Nat.zero_le _
      | cons last before => exact Nat.le_add_left 1 before.length
  | cons signal rest ih =>
      have hparts : parts (signal :: rest) = parts [signal] + parts rest := parts_append [signal] rest
      have hrest : (reads length rest).length ≤ 0 + parts rest := ih [] length
      cases signal with
      | interruption =>
          have hpart : parts [.interruption] = 0 := rfl
          have hmore := ih taken room
          rw [readsFrom]
          omega
      | failure reason =>
          have hpart : parts [.failure reason] = 1 := rfl
          rw [readsFrom, readsFrom_toList, List.length_append]
          change 1 + (reads length rest).length ≤ _
          omega
      | byte value =>
          have hpart : parts [.byte value] = 1 := rfl
          rw [readsFrom]
          split
          · rw [readsFrom_toList, List.length_append]
            change 1 + (reads length rest).length ≤ _
            omega
          · have hmore := ih (value :: taken) (room - 1)
            rw [List.length_cons] at hmore
            omega

theorem length_reads_le (length : Nat) (feed : Feed) :
    (feed.reads length).length ≤ feed.parts := by
  have hle := length_readsFrom_le length [] length feed
  rwa [List.length_nil, Nat.zero_add] at hle

end Feed

/-- Whether the end of a line was reached within the limits. -/
def LineRead.completes (limits : Limits) : LineRead → Bool
  | .line bytes => contentLength bytes ≤ limits.lineLength
  | .failed _ => false

def LineRead.text? : LineRead → Option String
  | .line bytes => (decodeUtf8 bytes).toOption.map trim
  | .failed _ => none

theorem LineRead.count_shown (limits : Limits) (read : LineRead) :
    (read.shown limits).count = if read.completes limits then 1 else 0 := by
  cases read with
  | failed reason => rfl
  | line bytes =>
      by_cases hlong : limits.lineLength < contentLength bytes
      · simp [shown, completes, hlong, ShownLine.count]
      · cases hd : decodeUtf8 bytes <;>
          simp [shown, completes, hlong, hd, Nat.not_lt.1 hlong, ShownLine.count]

theorem LineRead.text?_shown (limits : Limits) (read : LineRead) :
    (read.shown limits).text? = if read.completes limits then read.text? else none := by
  cases read with
  | failed reason => rfl
  | line bytes =>
      by_cases hlong : limits.lineLength < contentLength bytes
      · simp [shown, completes, hlong, ShownLine.text?]
      · cases hd : decodeUtf8 bytes <;>
          simp [shown, completes, text?, hlong, hd, Nat.not_lt.1 hlong, ShownLine.text?,
            Except.toOption]

theorem sum_count_shown (limits : Limits) (lines : List LineRead) :
    (lines.map fun read => (read.shown limits).count).sum =
      (lines.filter (LineRead.completes limits)).length := by
  induction lines with
  | nil => rfl
  | cons read lines ih =>
      rw [List.map_cons, List.sum_cons, ih, LineRead.count_shown]
      cases hc : read.completes limits <;> simp [hc, Nat.add_comm]

theorem shownTexts_eq (limits : Limits) (lines : List LineRead) :
    shownTexts limits lines =
      (lines.filter (LineRead.completes limits)).filterMap LineRead.text? := by
  simp only [shownTexts, LineRead.text?_shown, List.filterMap_filter]

theorem RowRead.isEnd_eq_true_iff {read : RowRead} :
    read.isEnd = true ↔ read.outcome = .ok false := by
  cases ho : read.outcome with
  | error failure => simp [isEnd, ho]
  | ok more => simp [isEnd_of_ok ho]

variable {limits : Limits} {buffers : RowBuffers} {row : Row} {position : FeedPosition}

theorem nextRow_taken (limits : Limits) (buffers : RowBuffers) (row : Row)
    (position : FeedPosition) :
    let read := nextRow limits buffers row position
    ∃ used : Feed, position.feed = used ++ read.position.feed ∧
      (read.outcome ≠ .ok false → 0 < used.parts) ∧
      let completed := (used.reads limits.readLength).filter (LineRead.completes limits)
      read.position.line = position.line + completed.length ∧
      read.position.fingerprint =
        (completed.filterMap LineRead.text?).foldl Fingerprint.add position.fingerprint := by
  intro read
  obtain ⟨used, hfeed, hreads⟩ := nextRow_used limits buffers row position
  change _ = _ ++ Feed.reads limits.readLength read.position.feed at hreads
  obtain ⟨taken, hlines, hline, hfingerprint⟩ := readRowFrom_taken limits {} 0 position.line
    position.fingerprint (position.feed.reads limits.readLength)
  have hread : read.rowRead limits = readRowFrom limits {} 0 position.line position.fingerprint
      (position.feed.reads limits.readLength) := nextRow_rowRead limits buffers row position
  rw [← hread] at hlines hline hfingerprint
  -- the lines taken are those of the part that is used
  obtain rfl : Feed.reads limits.readLength used = taken :=
    List.append_cancel_right (hreads.symm.trans hlines)
  refine ⟨used, hfeed, fun ho => ?_, ?_, ?_⟩
  · have hlt : (read.position.feed.reads limits.readLength).length <
        (position.feed.reads limits.readLength).length := by
      have hend : (readLogicalRow limits (position.lines limits)).isEnd = false := by
        rw [← nextRow_rowRead limits buffers row]
        exact Bool.eq_false_iff.2 (mt RowRead.isEnd_eq_true_iff.1 ho)
      have hrest := readLogicalRow_rest_lt hend
      rwa [← nextRow_rowRead limits buffers row] at hrest
    have hle := Feed.length_reads_le limits.readLength used
    rw [hreads, List.length_append] at hlt
    omega
  · rw [← sum_count_shown]
    exact hline
  · rw [← shownTexts_eq]
    exact hfingerprint

theorem nextRow_parts_lt (h : (nextRow limits buffers row position).outcome ≠ .ok false) :
    (nextRow limits buffers row position).position.feed.parts < position.feed.parts := by
  obtain ⟨used, hfeed, hused, -⟩ := nextRow_taken limits buffers row position
  have hparts := congrArg Feed.parts hfeed
  rw [Feed.parts_append] at hparts
  have hpos := hused h
  omega

/-- However often reading a row fails, going on comes to the end of the feed. -/
theorem nextRows_ends (limits : Limits) (rows : Nat → Row) (buffers : RowBuffers)
    (position : FeedPosition) :
    ∃ calls ≤ position.feed.parts,
      (nextRows limits rows buffers position calls).outcome = .ok false ∧
        ∀ n < calls, (nextRows limits rows buffers position n).outcome ≠ .ok false := by
  induction hparts : position.feed.parts using Nat.strongRecOn generalizing rows buffers position with
  | ind parts ih =>
      by_cases ho : (nextRow limits buffers (rows 0) position).outcome = .ok false
      · exact ⟨0, Nat.zero_le parts, ho, fun n hn => absurd hn (Nat.not_lt_zero n)⟩
      · have hlt := nextRow_parts_lt ho
        rw [hparts] at hlt
        obtain ⟨calls, hcalls, hend, hbefore⟩ := ih _ hlt (fun n => rows (n + 1))
          (nextRow limits buffers (rows 0) position).buffers
          (nextRow limits buffers (rows 0) position).position rfl
        refine ⟨calls + 1, by omega, hend, fun n hn => ?_⟩
        cases n with
        | zero => exact ho
        | succ n => exact hbefore n (Nat.lt_of_succ_lt_succ hn)

/-- Whatever a feed yields, each attempt to read a row of it takes up a first part of the feed.
The line number counts the lines in that part that were complete within the limits, and the
fingerprint adds the texts among them. An attempt that finds the end changes neither; any other
one takes up a byte or a failure, so that the end is found after as many attempts as the feed has
of these, and one more. -/
theorem nextRow_progress (limits : Limits) (buffers : RowBuffers) (row : Row)
    (position : FeedPosition) :
    let read := nextRow limits buffers row position
    (∃ used : Feed, position.feed = used ++ read.position.feed ∧
      let completed := (used.reads limits.readLength).filter (LineRead.completes limits)
      read.position.line = position.line + completed.length ∧
      read.position.fingerprint =
        (completed.filterMap LineRead.text?).foldl Fingerprint.add position.fingerprint ∧
      (read.outcome = .ok false → read.position = { position with feed := [] }) ∧
      (read.outcome ≠ .ok false → 0 < used.parts)) ∧
    ∀ rows : Nat → Row, ∃ calls ≤ position.feed.parts,
      (nextRows limits rows buffers position calls).outcome = .ok false ∧
        ∀ n < calls, (nextRows limits rows buffers position n).outcome ≠ .ok false := by
  intro read
  obtain ⟨used, hfeed, hpos, hline, hfingerprint⟩ := nextRow_taken limits buffers row position
  exact ⟨⟨used, hfeed, hline, hfingerprint, nextRow_end, hpos⟩,
    fun rows => nextRows_ends limits rows buffers position⟩

end DefinitionFiles
