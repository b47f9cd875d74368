import DefinitionFiles.Proofs.Feed.Whole
import DefinitionFiles.Proofs.Row.Steps

namespace DefinitionFiles

open Text

def LineRead.bytes : LineRead → List UInt8
  | .line bytes => bytes
  | .failed _ => []

def Position.left (position : Position) : List UInt8 := position.rest.flatMap LineRead.bytes

theorem Limits.readLength_pos (limits : Limits) : 0 < limits.readLength := by
  simp only [readLength, greatest, UInt64.size]
  omega

namespace Feed

theorem exists_first_read {length : Nat} (hpos : 0 < length) {bytes : List UInt8}
    (hne : bytes ≠ []) :
    ∃ first rest, bytes = first ++ rest ∧ first ≠ [] ∧
      (ofBytes bytes).reads length = .line first :: (ofBytes rest).reads length := by
  obtain ⟨line, lines, hl⟩ : ∃ line lines, wholeLines bytes = line :: lines := by
    apply List.exists_cons_of_ne_nil
    intro hn
    exact hne (by rw [← flatten_wholeLines bytes, hn, List.flatten_nil])
  by_cases hlength : line.length ≤ length
  · refine ⟨line, lines.flatten, ?_, ?_, reads_whole hl hlength⟩
    · rw [← flatten_wholeLines bytes, hl, List.flatten_cons]
    · rintro rfl
      obtain ⟨-, ⟨content, -, hc⟩ | ⟨-, hn, -⟩⟩ := wholeLines_eq_cons hl
      · simp at hc
      · exact hn rfl
  · obtain ⟨-, hcount, hreads⟩ := reads_cut hl (Nat.not_le.1 hlength) hpos
    refine ⟨bytes.take length, bytes.drop length, (List.take_append_drop _ _).symm, ?_, hreads⟩
    intro hn
    rw [hn, List.length_nil] at hcount
    omega

theorem reads_induction {length : Nat} (hpos : 0 < length) {motive : List UInt8 → Prop}
    (nil : motive [])
    (read : ∀ first rest,
      (ofBytes (first ++ rest)).reads length = .line first :: (ofBytes rest).reads length →
        motive rest → motive (first ++ rest)) (bytes : List UInt8) : motive bytes := by
  generalize hn : bytes.length = n
  induction n using Nat.strongRecOn generalizing bytes with
  | ind n ih =>
      by_cases hne : bytes = []
      · exact hne ▸ nil
      · obtain ⟨first, rest, rfl, hfirst, hreads⟩ := exists_first_read hpos hne
        refine read first rest hreads (ih rest.length ?_ rest rfl)
        have hp := List.length_pos_iff.2 hfirst
        rw [List.length_append] at hn
        omega

theorem flatMap_bytes_reads {length : Nat} (hpos : 0 < length) (bytes : List UInt8) :
    ((ofBytes bytes).reads length).flatMap LineRead.bytes = bytes := by
  induction bytes using reads_induction hpos with
  | nil => rfl
  | read first rest hreads ih => rw [hreads, List.flatMap_cons, ih, LineRead.bytes]

theorem reads_left {length : Nat} (hpos : 0 < length) {bytes : List UInt8} {rest : List LineRead}
    (h : rest <:+ (ofBytes bytes).reads length) :
    rest.flatMap LineRead.bytes <:+ bytes ∧
      rest = (ofBytes (rest.flatMap LineRead.bytes)).reads length := by
  obtain ⟨left, hleft, rfl⟩ : ∃ left, left <:+ bytes ∧ rest = (ofBytes left).reads length := by
    induction bytes using reads_induction hpos with
    | nil => exact ⟨[], List.suffix_refl [], List.suffix_nil.1 h⟩
    | read first more hreads ih =>
        rw [hreads] at h
        rcases List.suffix_cons_iff.1 h with rfl | h
        · exact ⟨first ++ more, List.suffix_refl _, hreads.symm⟩
        · obtain ⟨left, hleft, hrest⟩ := ih h
          exact ⟨left, hleft.trans (List.suffix_append first more), hrest⟩
  rw [flatMap_bytes_reads hpos]
  exact ⟨hleft, rfl⟩

end Feed

namespace Limits

/-- The length that a line is refused for: no more of it is read than the terminator of an
admissible one would need. -/
def refusedLength (limits : Limits) (line : List UInt8) : Nat :=
  contentLength (line.take (limits.lineLength + 2))

theorem reads_first (limits : Limits) {bytes line : List UInt8} {lines : List (List UInt8)}
    (hbytes : bytes.length < 2 ^ 64 - 2) (h : wholeLines bytes = line :: lines) :
    (contentLength line ≤ limits.lineLength →
      (Feed.ofBytes bytes).reads limits.readLength =
        .line line :: (Feed.ofBytes lines.flatten).reads limits.readLength) ∧
    (limits.lineLength < contentLength line →
      (limits.refusedLength line = limits.lineLength + 1 ∨
        limits.refusedLength line = limits.lineLength + 2) ∧
      ∃ seen rest, (Feed.ofBytes bytes).reads limits.readLength = .line seen :: rest ∧
        contentLength seen = limits.refusedLength line) := by
  have hline : line.length ≤ bytes.length := by
    rw [← flatten_wholeLines bytes, h, List.flatten_cons, List.length_append]
    omega
  obtain ⟨hle, hge⟩ := contentLength_bounds line
  have hlength : limits.readLength = min (limits.lineLength + 2) (2 ^ 64 - 1) := rfl
  refine ⟨fun hc => Feed.reads_whole h (by omega), fun hc => ?_⟩
  by_cases hl : line.length ≤ limits.lineLength + 2
  · have htake : line.take (limits.lineLength + 2) = line := List.take_of_length_le hl
    rw [refusedLength, htake]
    exact ⟨by omega, line, _, Feed.reads_whole h (by omega), rfl⟩
  · have hroom : limits.readLength = limits.lineLength + 2 := by omega
    have hcut : limits.readLength < line.length := by omega
    obtain ⟨hn, hcount, hreads⟩ := Feed.reads_cut h hcut (by omega)
    have htake : line.take (limits.lineLength + 2) = bytes.take limits.readLength := by
      rw [hroom, ← flatten_wholeLines bytes, h, List.flatten_cons,
        List.take_append_of_le_length (by omega)]
    rw [refusedLength, htake]
    refine ⟨.inr ?_, _, _, hreads, rfl⟩
    rw [contentLength_of_not_mem hn, hcount, hroom]

/-- Reading a row of some lines comes to the next of them: those before it are whole, within the
limits, and leave quotes open. -/
inductive Reaches (limits : Limits) (line : Nat) (lines : List (List UInt8)) :
    List String → Split → List (List UInt8) → Prop
  | start : Reaches limits line lines [] {} lines
  | next (taken : List String) (split : Split) (text : String) (later : List (List UInt8))
      (openedOn : Nat) (h : Reaches limits line lines taken split (encodeUtf8 text :: later))
      (hlength : contentLength (encodeUtf8 text) ≤ limits.lineLength)
      (hcount : taken.length < max 1 limits.linesPerRow)
      (hignores : split.ignores (trim text) = false)
      (hplace : (split.takeLine (line + taken.length + 1) (trim text)).place = .quoted openedOn) :
      Reaches limits line lines (taken ++ [text])
        (split.takeLine (line + taken.length + 1) (trim text)) later

/-- What reading a row ends with, and the fields that it leaves, at the line it has come to. -/
inductive Stops (limits : Limits) (line : Nat) (taken : List String) (split : Split) :
    List (List UInt8) → Except TextFailure Bool → Row → Prop
  | exhausted (fieldStart : Bool) (hplace : split.place = .outside fieldStart) :
      Stops limits line taken split [] (.ok false) split.row
  | unclosed (openedOn : Nat) (hplace : split.place = .quoted openedOn) :
      Stops limits line taken split [] (.error (.unclosedQuote openedOn)) split.row
  | long (physical : List UInt8) (later : List (List UInt8))
      (hlength : limits.lineLength < contentLength physical) :
      Stops limits line taken split (physical :: later) (.error (.longLine
        (line + taken.length + 1) (limits.refusedLength physical) limits.lineLength)) split.row
  | invalid (physical : List UInt8) (later : List (List UInt8)) (fault : Utf8Fault)
      (hlength : contentLength physical ≤ limits.lineLength)
      (hfault : decodeUtf8 physical = .error fault) :
      Stops limits line taken split (physical :: later)
        (.error (.invalidUtf8 (line + taken.length + 1) fault.message)) split.row
  | many (text : String) (later : List (List UInt8)) (openedOn : Nat)
      (hlength : contentLength (encodeUtf8 text) ≤ limits.lineLength)
      (hcount : taken.length = max 1 limits.linesPerRow)
      (hplace : split.place = .quoted openedOn) :
      Stops limits line taken split (encodeUtf8 text :: later)
        (.error (.manyLines openedOn limits.linesPerRow)) split.row
  | made (text : String) (later : List (List UInt8)) (row : Row)
      (hlength : contentLength (encodeUtf8 text) ≤ limits.lineLength)
      (hcount : taken.length < max 1 limits.linesPerRow)
      (hmakes : split.Makes (line + taken.length) [trim text] row) :
      Stops limits line taken split (encodeUtf8 text :: later) (.ok true) row

variable {limits : Limits} {line : Nat} {lines later : List (List UInt8)} {taken : List String}
  {split : Split}

namespace Reaches

theorem lines_eq (h : limits.Reaches line lines taken split later) :
    lines = taken.map encodeUtf8 ++ later := by
  induction h with
  | start => rfl
  | next taken split text later openedOn h _ _ _ _ ih => simp [ih]

theorem length_le (h : limits.Reaches line lines taken split later) :
    taken.length ≤ max 1 limits.linesPerRow := by
  cases h with
  | start => exact Nat.zero_le _
  | next taken _ _ _ _ _ _ hcount _ _ =>
      rw [List.length_append, List.length_singleton]
      exact hcount

theorem place (h : limits.Reaches line lines taken split later) :
    (taken = [] ∧ split = {}) ∨ (taken ≠ [] ∧ ∃ openedOn, split.place = .quoted openedOn) := by
  cases h with
  | start => exact .inl ⟨rfl, rfl⟩
  | next _ _ _ _ openedOn _ _ _ _ hplace => exact .inr ⟨by simp, openedOn, hplace⟩

theorem overdue?_eq_none (h : limits.Reaches line lines taken split later)
    (hcount : taken.length < max 1 limits.linesPerRow) :
    split.overdue? limits taken.length = none := by
  rw [Split.overdue?_eq_none_iff]
  intro openedOn hplace
  rcases h.place with ⟨-, rfl⟩ | ⟨hne, -⟩
  · cases hplace
  · have hp := List.length_pos_iff.2 hne
    omega

theorem wholeLines_later {bytes : List UInt8}
    (h : limits.Reaches line (wholeLines bytes) taken split later) :
    wholeLines later.flatten = later := by
  induction h with
  | start => rw [flatten_wholeLines]
  | next _ _ _ _ _ _ _ _ _ _ ih => exact (wholeLines_eq_cons ih).1

theorem length_later_le {bytes : List UInt8}
    (h : limits.Reaches line (wholeLines bytes) taken split later) :
    later.flatten.length ≤ bytes.length := by
  rw [← flatten_wholeLines bytes, h.lines_eq, List.flatten_append, List.length_append]
  omega

theorem fits (h : limits.Reaches line lines taken split later) :
    ∀ text ∈ taken, contentLength (encodeUtf8 text) ≤ limits.lineLength := by
  induction h with
  | start => exact List.forall_mem_nil _
  | next taken split text later openedOn h hlength _ _ _ ih =>
      intro other hother
      rcases List.mem_append.1 hother with hother | hother
      · exact ih other hother
      · exact List.mem_singleton.1 hother ▸ hlength

theorem makes (h : limits.Reaches line lines taken split later) {texts : List String} {row : Row}
    (hmakes : split.Makes (line + taken.length) texts row) :
    Split.Makes line {} (taken.map trim ++ texts) row := by
  induction h generalizing texts with
  | start => exact hmakes
  | next taken split text later openedOn h _ _ hignores hplace ih =>
      rw [List.length_append, List.length_singleton, ← Nat.add_assoc] at hmakes
      rw [List.map_append, List.append_assoc]
      exact ih (.opened _ _ _ openedOn _ _ hignores hplace hmakes)

theorem exists_last {texts : List String} {row : Row}
    (h : limits.Reaches line lines taken split (texts.map encodeUtf8 ++ later))
    (hlengths : ∀ text ∈ texts, contentLength (encodeUtf8 text) ≤ limits.lineLength)
    (hcount : taken.length + texts.length ≤ max 1 limits.linesPerRow)
    (hmakes : split.Makes (line + taken.length) (texts.map trim) row) :
    ∃ taken' split' text, limits.Reaches line lines taken' split' (encodeUtf8 text :: later) ∧
      contentLength (encodeUtf8 text) ≤ limits.lineLength ∧
      taken'.length + 1 = taken.length + texts.length ∧
      split'.Makes (line + taken'.length) [trim text] row := by
  induction texts generalizing taken split with
  | nil => cases hmakes
  | cons text texts ih =>
      obtain ⟨hlength, hlengths⟩ := List.forall_mem_cons.1 hlengths
      rw [List.length_cons] at hcount
      rw [List.map_cons] at hmakes
      generalize htexts : texts.map trim = trimmed at hmakes
      have hlast : trimmed = [] → split.Makes (line + taken.length) [trim text] row →
          ∃ taken' split' text', limits.Reaches line lines taken' split'
              (encodeUtf8 text' :: later) ∧
            contentLength (encodeUtf8 text') ≤ limits.lineLength ∧
            taken'.length + 1 = taken.length + (text :: texts).length ∧
            split'.Makes (line + taken'.length) [trim text'] row := by
        rintro rfl hmakes
        obtain rfl := List.map_eq_nil_iff.1 htexts
        exact ⟨taken, split, text, h, hlength, rfl, hmakes⟩
      cases hmakes with
      | ignored _ _ _ hi => exact hlast rfl (.ignored _ _ _ hi)
      | closed _ _ _ fieldStart hi hplace => exact hlast rfl (.closed _ _ _ fieldStart hi hplace)
      | opened _ _ _ openedOn _ _ hi hplace hrest =>
          have hnext := h.next _ _ _ _ openedOn hlength (by omega) hi hplace
          have htaken : (taken ++ [text]).length = taken.length + 1 := by simp
          obtain ⟨taken', split', text', h', hlength', hcount', hmakes'⟩ :=
            ih hnext hlengths (by omega) (by rw [htaken, htexts]; exact hrest)
          refine ⟨taken', split', text', h', hlength', ?_, hmakes'⟩
          rw [hcount', htaken, List.length_cons]
          omega

end Reaches

theorem shown_text {text : String} (h : contentLength (encodeUtf8 text) ≤ limits.lineLength) :
    (LineRead.line (encodeUtf8 text)).shown limits = .text (trim text) :=
  LineRead.shown_line h (decodeUtf8_encodeUtf8 text)

theorem Reaches.readRowFrom_next (h : limits.Reaches line lines taken split later) {text : String}
    {openedOn : Nat} (hlength : contentLength (encodeUtf8 text) ≤ limits.lineLength)
    (hcount : taken.length < max 1 limits.linesPerRow) (hignores : split.ignores (trim text) = false)
    (hplace : (split.takeLine (line + taken.length + 1) (trim text)).place = .quoted openedOn)
    (fingerprint : Fingerprint) (rest : List LineRead) :
    readRowFrom limits split taken.length (line + taken.length) fingerprint
        (.line (encodeUtf8 text) :: rest) =
      readRowFrom limits (split.takeLine (line + taken.length + 1) (trim text))
        (taken ++ [text]).length (line + (taken ++ [text]).length) (fingerprint.add (trim text))
        rest := by
  have hstep : split.step limits taken.length (line + taken.length) (.text (trim text)) =
      .onward (split.takeLine (line + taken.length + 1) (trim text)) := by
    simp [Split.step, h.overdue?_eq_none hcount, hignores, hplace]
  rw [readRowFrom, shown_text hlength]
  simp only [hstep]
  rw [List.length_append, List.length_singleton, Nat.add_assoc]
  rfl

variable {bytes : List UInt8}

def rowRead (limits : Limits) (line : Nat) (fingerprint : Fingerprint) (bytes : List UInt8) :
    RowRead :=
  readRowFrom limits {} 0 line fingerprint ((Feed.ofBytes bytes).reads limits.readLength)

theorem rowRead_reached (hbytes : bytes.length < 2 ^ 64 - 2)
    (h : limits.Reaches line (wholeLines bytes) taken split later) (fingerprint : Fingerprint) :
    ∃ fingerprint', limits.rowRead line fingerprint bytes =
      readRowFrom limits split taken.length (line + taken.length) fingerprint'
        ((Feed.ofBytes later.flatten).reads limits.readLength) := by
  induction h with
  | start => exact ⟨fingerprint, by rw [flatten_wholeLines]; rfl⟩
  | next taken split text later openedOn h hlength hcount hignores hplace ih =>
      obtain ⟨fingerprint', hread⟩ := ih
      have hlater := Nat.lt_of_le_of_lt h.length_later_le hbytes
      have hreads := (limits.reads_first hlater h.wholeLines_later).1 hlength
      refine ⟨fingerprint'.add (trim text), ?_⟩
      rw [hread, hreads, h.readRowFrom_next hlength hcount hignores hplace]

theorem step_of_makes {joined : Nat} {text : String} {row : Row}
    (hoverdue : split.overdue? limits joined = none) (h : split.Makes line [text] row) :
    ∃ left, split.step limits joined line (.text text) = .ended (.ok true) left ∧
      left.row = row := by
  cases h with
  | ignored _ _ _ hi => exact ⟨split, by simp [Split.step, hoverdue, hi], rfl⟩
  | closed _ _ _ fieldStart hi hplace =>
      exact ⟨_, by simp [Split.step, hoverdue, hi, hplace], Split.row_unlessBlank _⟩
  | opened _ _ _ _ _ _ _ _ hrest => cases hrest

theorem Reaches.exists_stops (h : limits.Reaches line lines taken split later) :
    ∃ taken split later outcome row, limits.Reaches line lines taken split later ∧
      limits.Stops line taken split later outcome row := by
  induction later generalizing taken split with
  | nil =>
      cases hplace : split.place with
      | outside fieldStart => exact ⟨_, _, _, _, _, h, .exhausted fieldStart hplace⟩
      | quoted openedOn => exact ⟨_, _, _, _, _, h, .unclosed openedOn hplace⟩
  | cons physical later ih =>
      by_cases hlong : limits.lineLength < contentLength physical
      · exact ⟨_, _, _, _, _, h, .long physical later hlong⟩
      have hlength := Nat.not_lt.1 hlong
      cases hd : decodeUtf8 physical with
      | error fault => exact ⟨_, _, _, _, _, h, .invalid physical later fault hlength hd⟩
      | ok text =>
          obtain rfl := encodeUtf8_of_decodeUtf8 hd
          by_cases hcount : taken.length < max 1 limits.linesPerRow
          · cases hi : split.ignores (trim text) with
            | true => exact ⟨_, _, _, _, _, h, .made text later _ hlength hcount (.ignored _ _ _ hi)⟩
            | false =>
                cases hplace : (split.takeLine (line + taken.length + 1) (trim text)).place with
                | outside fieldStart =>
                    exact ⟨_, _, _, _, _, h,
                      .made text later _ hlength hcount (.closed _ _ _ fieldStart hi hplace)⟩
                | quoted openedOn => exact ih (h.next _ _ _ _ openedOn hlength hcount hi hplace)
          · -- no row has that many lines before quotes are opened
            have hall := h.length_le
            rcases h.place with ⟨rfl, -⟩ | ⟨-, openedOn, hplace⟩
            · rw [List.length_nil] at hcount
              omega
            · exact ⟨_, _, _, _, _, h, .many text later openedOn hlength (by omega) hplace⟩

variable (hbytes : bytes.length < 2 ^ 64 - 2) (fingerprint : Fingerprint)
include hbytes

theorem rowRead_of_made {text : String} {row : Row}
    (h : limits.Reaches line (wholeLines bytes) taken split (encodeUtf8 text :: later))
    (hlength : contentLength (encodeUtf8 text) ≤ limits.lineLength)
    (hcount : taken.length < max 1 limits.linesPerRow)
    (hmakes : split.Makes (line + taken.length) [trim text] row) :
    let read := limits.rowRead line fingerprint bytes
    read.outcome = .ok true ∧ read.row = row ∧ read.position.line = line + (taken.length + 1) ∧
      wholeLines read.position.left = later := by
  obtain ⟨fingerprint', hread⟩ := rowRead_reached hbytes h fingerprint
  have hlater := Nat.lt_of_le_of_lt h.length_later_le hbytes
  obtain ⟨left, hstep, rfl⟩ := step_of_makes (h.overdue?_eq_none hcount) hmakes
  simp only [hread]
  rw [(limits.reads_first hlater h.wholeLines_later).1 hlength, readRowFrom,
    shown_text hlength]
  simp only [hstep, true_and]
  refine ⟨Nat.add_assoc _ _ _, ?_⟩
  rw [Position.left, Feed.flatMap_bytes_reads limits.readLength_pos]
  exact (wholeLines_eq_cons h.wholeLines_later).1

theorem outcome_of_stops {outcome : Except TextFailure Bool} {row : Row}
    (h : limits.Reaches line (wholeLines bytes) taken split later)
    (hstops : limits.Stops line taken split later outcome row) :
    (limits.rowRead line fingerprint bytes).outcome = outcome := by
  obtain ⟨fingerprint', hread⟩ := rowRead_reached hbytes h fingerprint
  have hlater := Nat.lt_of_le_of_lt h.length_later_le hbytes
  cases hstops with
  | made text later row hlength hcount hmakes =>
      exact (rowRead_of_made hbytes fingerprint h hlength hcount hmakes).1
  | exhausted fieldStart hplace =>
      rw [hread]
      simp [Feed.ofBytes, Feed.reads, Feed.readsFrom, readRowFrom, Split.atEnd, hplace]
  | unclosed openedOn hplace =>
      rw [hread]
      simp [Feed.ofBytes, Feed.reads, Feed.readsFrom, readRowFrom, Split.atEnd, hplace]
  | long physical later hlength =>
      obtain ⟨hrefused, seen, rest, hreads, hseen⟩ :=
        (limits.reads_first hlater h.wholeLines_later).2 hlength
      have hlong : limits.lineLength < limits.refusedLength physical := by omega
      rw [hread, hreads, readRowFrom]
      simp [LineRead.shown, hseen, hlong, Split.step]
  | invalid physical later fault hlength hfault =>
      rw [hread, (limits.reads_first hlater h.wholeLines_later).1 hlength, readRowFrom]
      simp [LineRead.shown, Nat.not_lt.2 hlength, hfault, Split.step]
  | many text later openedOn hlength hcount hplace =>
      have hoverdue : split.overdue? limits taken.length = some openedOn :=
        Split.overdue?_eq_some_iff.2 ⟨hplace, by omega⟩
      rw [hread, (limits.reads_first hlater h.wholeLines_later).1 hlength, readRowFrom,
        shown_text hlength]
      simp [Split.step, hoverdue]

theorem exists_stops_of_outcome {outcome : Except TextFailure Bool}
    (ho : (limits.rowRead line fingerprint bytes).outcome = outcome) :
    ∃ taken split later row, limits.Reaches line (wholeLines bytes) taken split later ∧
      limits.Stops line taken split later outcome row := by
  have hstart : limits.Reaches line (wholeLines bytes) [] {} (wholeLines bytes) := .start
  obtain ⟨taken, split, later, settled, row, hreaches, hstops⟩ := hstart.exists_stops
  obtain rfl : settled = outcome := by
    rw [← ho, outcome_of_stops hbytes fingerprint hreaches hstops]
  exact ⟨taken, split, later, row, hreaches, hstops⟩

theorem outcome_longLine_iff {physical : List UInt8}
    (h : limits.Reaches line (wholeLines bytes) taken split (physical :: later)) :
    (∃ length, (limits.rowRead line fingerprint bytes).outcome =
        .error (.longLine (line + taken.length + 1) length limits.lineLength)) ↔
      limits.lineLength < contentLength physical := by
  constructor
  · rintro ⟨length, ho⟩
    obtain ⟨taken', split', later', row, hreaches, hstops⟩ :=
      exists_stops_of_outcome hbytes fingerprint ho
    generalize hnumber : line + taken.length + 1 = number at hstops
    cases hstops with
    | long other later' hlong =>
        -- the line that it stops at is the one that it is said to
        have hcount : (taken.map encodeUtf8).length = (taken'.map encodeUtf8).length := by
          rw [List.length_map, List.length_map]
          omega
        obtain ⟨-, hphysical⟩ := List.append_inj (h.lines_eq.symm.trans hreaches.lines_eq) hcount
        rw [(List.cons.inj hphysical).1]
        exact hlong
  · intro hlong
    exact ⟨_, outcome_of_stops hbytes fingerprint h (.long physical later hlong)⟩

theorem length_of_longLine {number length longest : Nat}
    (ho : (limits.rowRead line fingerprint bytes).outcome =
      .error (.longLine number length longest)) :
    length = limits.lineLength + 1 ∨ length = limits.lineLength + 2 := by
  obtain ⟨taken, split, later, row, h, hstops⟩ := exists_stops_of_outcome hbytes fingerprint ho
  have hlater := Nat.lt_of_le_of_lt h.length_later_le hbytes
  cases hstops with
  | long physical later hlong => exact ((limits.reads_first hlater h.wholeLines_later).2 hlong).1

theorem rowRead_made_iff {row : Row} {number : Nat} :
    let read := limits.rowRead line fingerprint bytes
    read.outcome = .ok true ∧ read.row = row ∧ read.position.line = number ∧
        wholeLines read.position.left = later ↔
      ∃ texts : List String, wholeLines bytes = texts.map encodeUtf8 ++ later ∧
        (∀ text ∈ texts, contentLength (encodeUtf8 text) ≤ limits.lineLength) ∧
        texts.length ≤ max 1 limits.linesPerRow ∧ number = line + texts.length ∧
        Split.Makes line {} (texts.map trim) row := by
  constructor
  · rintro ⟨ho, rfl, rfl, rfl⟩
    obtain ⟨taken, split, later, row, h, hstops⟩ := exists_stops_of_outcome hbytes fingerprint ho
    cases hstops with
    | made text later row hfits hcount hmakes =>
        obtain ⟨-, hrow, hline, hlater⟩ :=
          rowRead_of_made hbytes fingerprint h hfits hcount hmakes
        refine ⟨taken ++ [text], ?_, ?_, ?_, ?_, ?_⟩
        · rw [hlater, h.lines_eq]
          simp
        · exact List.forall_mem_append.2 ⟨h.fits, by simpa using hfits⟩
        · rw [List.length_append, List.length_singleton]
          exact hcount
        · rw [List.length_append, List.length_singleton]
          exact hline
        · rw [hrow, List.map_append]
          exact h.makes hmakes
  · rintro ⟨texts, hlines, hfits, hcount, rfl, hmakes⟩
    have hstart : limits.Reaches line (wholeLines bytes) [] {} (wholeLines bytes) := .start
    rw [hlines] at hstart
    obtain ⟨taken, split, text, h, hfits, hcount', hmakes⟩ :=
      hstart.exists_last hfits (by rwa [List.length_nil, Nat.zero_add]) hmakes
    rw [List.length_nil, Nat.zero_add] at hcount'
    rw [← hlines] at h
    rw [← hcount']
    exact rowRead_of_made hbytes fingerprint h hfits (by omega) hmakes

theorem outcome_manyLines_iff {openedOn most : Nat} :
    (limits.rowRead line fingerprint bytes).outcome = .error (.manyLines openedOn most) ↔
      most = limits.linesPerRow ∧ ∃ taken split text later,
        limits.Reaches line (wholeLines bytes) taken split (encodeUtf8 text :: later) ∧
          split.place = .quoted openedOn ∧ taken.length = max 1 limits.linesPerRow ∧
          contentLength (encodeUtf8 text) ≤ limits.lineLength := by
  constructor
  · intro ho
    obtain ⟨taken, split, later, row, h, hstops⟩ := exists_stops_of_outcome hbytes fingerprint ho
    cases hstops with
    | many text later openedOn hfits hcount hplace =>
        exact ⟨rfl, taken, split, text, later, h, hplace, hcount, hfits⟩
  · rintro ⟨rfl, taken, split, text, later, h, hplace, hcount, hfits⟩
    exact outcome_of_stops hbytes fingerprint h (.many text later openedOn hfits hcount hplace)

theorem outcome_unclosedQuote_iff {openedOn : Nat} :
    (limits.rowRead line fingerprint bytes).outcome = .error (.unclosedQuote openedOn) ↔
      ∃ taken split, limits.Reaches line (wholeLines bytes) taken split [] ∧
        split.place = .quoted openedOn := by
  constructor
  · intro ho
    obtain ⟨taken, split, later, row, h, hstops⟩ := exists_stops_of_outcome hbytes fingerprint ho
    cases hstops with
    | unclosed openedOn hplace => exact ⟨taken, split, h, hplace⟩
  · rintro ⟨taken, split, h, hplace⟩
    exact outcome_of_stops hbytes fingerprint h (.unclosed openedOn hplace)

end Limits

open Limits in
/-- The limits are kept to the byte and to the line. Wherever a source has been read to, the
next row is refused for a line exactly if that is too long, and otherwise every line counts
as a whole. -/
theorem readLogicalRow_limits (limits : Limits) {feed : Feed}
    (hfeed : ∀ reason, .failure reason ∉ feed) (hlength : feed.content.length < 2 ^ 64 - 2)
    {position : Position} (hposition : position.rest <:+ feed.reads limits.readLength) :
    let read := readLogicalRow limits position
    let lines := wholeLines position.left
    let most := max 1 limits.linesPerRow
    position.rest = (Feed.ofBytes position.left).reads limits.readLength ∧
    (∀ taken split physical later,
      limits.Reaches position.line lines taken split (physical :: later) →
        let number := position.line + taken.length + 1
        ((∃ length, read.outcome = .error (.longLine number length limits.lineLength)) ↔
            limits.lineLength < contentLength physical) ∧
          ∀ fault, contentLength physical ≤ limits.lineLength →
            decodeUtf8 physical = .error fault →
              read.outcome = .error (.invalidUtf8 number fault.message)) ∧
    (∀ number length longest, read.outcome = .error (.longLine number length longest) →
      length = limits.lineLength + 1 ∨ length = limits.lineLength + 2) ∧
    (∀ row number later,
      read.outcome = .ok true ∧ read.row = row ∧ read.position.line = number ∧
          wholeLines read.position.left = later ↔
        ∃ texts : List String, lines = texts.map encodeUtf8 ++ later ∧
          (∀ text ∈ texts, contentLength (encodeUtf8 text) ≤ limits.lineLength) ∧
          texts.length ≤ most ∧ number = position.line + texts.length ∧
          Split.Makes position.line {} (texts.map trim) row) ∧
    (∀ openedOn longest, read.outcome = .error (.manyLines openedOn longest) ↔
      longest = limits.linesPerRow ∧ ∃ taken split text later,
        limits.Reaches position.line lines taken split (encodeUtf8 text :: later) ∧
          split.place = .quoted openedOn ∧ taken.length = most ∧
          contentLength (encodeUtf8 text) ≤ limits.lineLength) ∧
    (∀ openedOn, read.outcome = .error (.unclosedQuote openedOn) ↔
      ∃ taken split, limits.Reaches position.line lines taken split [] ∧
        split.place = .quoted openedOn) := by
  intro read lines most
  obtain ⟨hleft, hrest⟩ := Feed.reads_left limits.readLength_pos
    (Feed.reads_of_no_failure hfeed limits.readLength ▸ hposition)
  have hbytes : position.left.length < 2 ^ 64 - 2 := Nat.lt_of_le_of_lt hleft.length_le hlength
  have hread : read = limits.rowRead position.line position.fingerprint position.left :=
    congrArg (readRowFrom limits {} 0 position.line position.fingerprint) hrest
  rw [hread]
  refine ⟨hrest, ?_, fun number length longest => length_of_longLine hbytes position.fingerprint,
    fun row number later => rowRead_made_iff hbytes position.fingerprint,
    fun openedOn longest => outcome_manyLines_iff hbytes position.fingerprint,
    fun openedOn => outcome_unclosedQuote_iff hbytes position.fingerprint⟩
  intro taken split physical later h number
  refine ⟨outcome_longLine_iff hbytes position.fingerprint h, fun fault hfits hfault => ?_⟩
  exact outcome_of_stops hbytes position.fingerprint h (.invalid physical later fault hfits hfault)

theorem readLogicalRow_limits_many :
    let limits : Limits := ⟨2, 2⟩
    let feed : Feed := .interruption :: Feed.ofText "\"a\r\nb\nc\""
    (∀ reason, .failure reason ∉ feed) ∧ feed.content.length < 2 ^ 64 - 2 ∧
      (readLogicalRow limits (.ofFeed limits feed)).outcome = .error (.manyLines 1 2) := by
  intro limits feed
  have hfeed : ∀ reason, .failure reason ∉ feed := by
    intro reason h
    simp [feed, Feed.ofText, Feed.ofBytes] at h
  have hlength : feed.content.length < 2 ^ 64 - 2 := by decide +kernel
  obtain ⟨-, -, -, -, hmany, -⟩ := readLogicalRow_limits limits hfeed hlength
    (List.suffix_refl (Position.ofFeed limits feed).rest)
  let lines := [encodeUtf8 "\"a\r\n", encodeUtf8 "b\n", encodeUtf8 "c\""]
  have hlines : wholeLines (Position.ofFeed limits feed).left = lines := by decide +kernel
  have hstart : limits.Reaches 0 lines [] {} lines := .start
  have hfirst := hstart.next _ _ _ _ 1 (by decide +kernel) (by decide +kernel) (by decide +kernel)
    (by decide +kernel)
  have hsecond := hfirst.next _ _ _ _ 1 (by decide +kernel) (by decide +kernel)
    (by decide +kernel) (by decide +kernel)
  refine ⟨hfeed, hlength, (hmany 1 2).2 ⟨rfl, _, _, _, _, hlines ▸ hsecond, ?_, ?_, ?_⟩⟩ <;>
    decide +kernel

end DefinitionFiles
