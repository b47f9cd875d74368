import DefinitionFiles.Limits
import DefinitionFiles.Proofs.Feed.Physical

namespace DefinitionFiles

/-- The physical lines of some bytes, each with the line feed that ends it. Only the last
may have none. -/
def wholeLines : List UInt8 → List (List UInt8)
  | [] => []
  | byte :: rest =>
      if byte = lineFeed then [byte] :: wholeLines rest
      else
        match wholeLines rest with
        | [] => [[byte]]
        | line :: lines => (byte :: line) :: lines

theorem wholeLines_of_not_mem {line : List UInt8} (h : lineFeed ∉ line) (hne : line ≠ []) :
    wholeLines line = [line] := by
  induction line with
  | nil => exact absurd rfl hne
  | cons byte line ih =>
      have hb : byte ≠ lineFeed := fun he => h (by simp [he])
      have hl : lineFeed ∉ line := fun hm => h (List.mem_cons_of_mem byte hm)
      cases line with
      | nil => simp [wholeLines, hb]
      | cons next line => rw [wholeLines, if_neg hb, ih hl (by simp)]

theorem wholeLines_lineFeed {line : List UInt8} (h : lineFeed ∉ line) (rest : List UInt8) :
    wholeLines (line ++ lineFeed :: rest) = (line ++ [lineFeed]) :: wholeLines rest := by
  induction line with
  | nil => simp [wholeLines]
  | cons byte line ih =>
      have hb : byte ≠ lineFeed := fun he => h (by simp [he])
      have hl : lineFeed ∉ line := fun hm => h (List.mem_cons_of_mem byte hm)
      rw [List.cons_append, wholeLines, if_neg hb, ih hl]
      rfl

theorem wholeLines_induction {motive : List UInt8 → Prop} (nil : motive [])
    (line : ∀ line rest, lineFeed ∉ line → motive rest → motive (line ++ lineFeed :: rest))
    (last : ∀ line, lineFeed ∉ line → line ≠ [] → motive line) (bytes : List UInt8) :
    motive bytes := by
  generalize hn : bytes.length = n
  induction n using Nat.strongRecOn generalizing bytes with
  | ind n ih =>
      by_cases hm : lineFeed ∈ bytes
      · obtain ⟨first, rest, rfl, hf⟩ := List.eq_append_cons_of_mem hm
        refine line first rest hf (ih rest.length ?_ rest rfl)
        simp only [List.length_append, List.length_cons] at hn
        omega
      · by_cases he : bytes = []
        · exact he ▸ nil
        · exact last bytes hm he

theorem flatten_wholeLines (bytes : List UInt8) : (wholeLines bytes).flatten = bytes := by
  induction bytes using wholeLines_induction with
  | nil => rfl
  | line line rest h ih => simp [wholeLines_lineFeed h, ih]
  | last line h hne => simp [wholeLines_of_not_mem h hne]

theorem wholeLines_eq_cons {bytes line : List UInt8} {lines : List (List UInt8)}
    (h : wholeLines bytes = line :: lines) :
    wholeLines lines.flatten = lines ∧
      ((∃ content, lineFeed ∉ content ∧ line = content ++ [lineFeed]) ∨
        lineFeed ∉ line ∧ line ≠ [] ∧ lines = []) := by
  cases bytes using wholeLines_induction with
  | nil => cases h
  | line content rest hc _ =>
      rw [wholeLines_lineFeed hc] at h
      obtain ⟨rfl, rfl⟩ := List.cons.inj h
      exact ⟨by rw [flatten_wholeLines], .inl ⟨content, hc, rfl⟩⟩
  | last content hc hne =>
      rw [wholeLines_of_not_mem hc hne] at h
      obtain ⟨rfl, rfl⟩ := List.cons.inj h
      exact ⟨rfl, .inr ⟨hc, hne, rfl⟩⟩

theorem contentLength_bounds (bytes : List UInt8) :
    contentLength bytes ≤ bytes.length ∧ bytes.length ≤ contentLength bytes + 2 := by
  simp only [contentLength]
  cases hr : bytes.reverse with
  | nil => simp [List.reverse_eq_nil_iff.1 hr]
  | cons last before =>
      have hl : bytes.length = before.length + 1 := by
        rw [← List.length_reverse, hr, List.length_cons]
      simp only [hl]
      split
      · split <;> omega
      · omega

namespace Feed

theorem reads_of_no_failure {feed : Feed} (hfeed : ∀ reason, .failure reason ∉ feed)
    (length : Nat) : feed.reads length = (ofBytes feed.content).reads length := by
  have hreads : ∀ taken room, readsFrom length #[] taken room feed =
      readsFrom length #[] taken room (ofBytes feed.content) := by
    induction feed with
    | nil => exact fun _ _ => rfl
    | cons signal rest ih =>
        have ih := ih fun reason hm => hfeed reason (List.mem_cons_of_mem signal hm)
        intro taken room
        cases signal with
        | interruption => exact ih taken room
        | failure reason => exact absurd List.mem_cons_self (hfeed reason)
        | byte value =>
            have hc : ofBytes (content (.byte value :: rest)) =
                .byte value :: ofBytes (content rest) := rfl
            rw [hc, readsFrom, readsFrom]
            split
            · rw [← Array.toList_inj, readsFrom_toList, readsFrom_toList _ _ _ _ (ofBytes _), ih]
            · exact ih _ _
  rw [reads, reads, hreads]

theorem reads_full {length : Nat} {line : List UInt8} (h : lineFeed ∉ line)
    (hlength : line.length = length) (hne : line ≠ []) (rest : Feed) :
    reads length (ofBytes line ++ rest) = .line line :: reads length rest := by
  obtain ⟨before, last, rfl⟩ := List.eq_nil_or_concat line |>.resolve_left hne
  have hb : lineFeed ∉ before := fun hm => h (by simp [hm])
  simp only [List.concat_eq_append, List.length_append, List.length_singleton] at hlength
  have hfeed : ofBytes (before.concat last) ++ rest = ofBytes before ++ .byte last :: rest := by
    simp [ofBytes]
  rw [reads, hfeed, readsFrom_taken length before hb [] length (by omega), readsFrom,
    if_pos (.inr (by omega)), readsFrom_toList]
  simp [reads]

theorem reads_whole {length : Nat} {bytes line : List UInt8} {lines : List (List UInt8)}
    (h : wholeLines bytes = line :: lines) (hlength : line.length ≤ length) :
    (ofBytes bytes).reads length = .line line :: (ofBytes lines.flatten).reads length := by
  obtain ⟨-, ⟨content, hc, rfl⟩ | ⟨hl, hne, rfl⟩⟩ := wholeLines_eq_cons h
  · rw [List.length_append, List.length_singleton] at hlength
    rw [← flatten_wholeLines bytes, h, List.flatten_cons, ofBytes, List.map_append]
    exact reads_line hc hlength _
  · rw [← flatten_wholeLines bytes, h, List.flatten_singleton]
    rcases Nat.lt_or_eq_of_le hlength with hlt | heq
    · have ht := readsFrom_taken length line hl [] length hlt []
      rw [List.append_nil] at ht
      rw [reads, ht]
      simp [readsFrom, hne, reads, ofBytes]
    · have hf := reads_full hl heq hne []
      rw [List.append_nil] at hf
      exact hf

theorem reads_cut {length : Nat} {bytes line : List UInt8} {lines : List (List UInt8)}
    (h : wholeLines bytes = line :: lines) (hlength : length < line.length) (hpos : 0 < length) :
    lineFeed ∉ bytes.take length ∧ (bytes.take length).length = length ∧
      (ofBytes bytes).reads length =
        .line (bytes.take length) :: (ofBytes (bytes.drop length)).reads length := by
  have hbytes : bytes = line ++ lines.flatten := by
    rw [← flatten_wholeLines bytes, h, List.flatten_cons]
  have htake : bytes.take length = line.take length := by
    rw [hbytes, List.take_append_of_le_length (by omega)]
  have hn : lineFeed ∉ line.take length := by
    obtain ⟨-, ⟨content, hc, rfl⟩ | ⟨hl, -, -⟩⟩ := wholeLines_eq_cons h
    · rw [List.length_append, List.length_singleton] at hlength
      rw [List.take_append_of_le_length (by omega)]
      exact fun hm => hc (List.mem_of_mem_take hm)
    · exact fun hm => hl (List.mem_of_mem_take hm)
  have hcount : (line.take length).length = length := by
    rw [List.length_take]
    omega
  have hne : line.take length ≠ [] := by
    intro he
    rw [he, List.length_nil] at hcount
    omega
  have hfull := reads_full hn hcount hne (ofBytes (bytes.drop length))
  rw [htake]
  refine ⟨hn, hcount, ?_⟩
  rw [← hfull, ← htake, ofBytes, ofBytes, ofBytes, ← List.map_append, List.take_append_drop]

theorem reads_eq_wholeLines {length : Nat} {bytes : List UInt8}
    (h : ∀ line ∈ wholeLines bytes, line.length ≤ length) :
    (ofBytes bytes).reads length = (wholeLines bytes).map .line := by
  generalize hlines : wholeLines bytes = lines at h
  induction lines generalizing bytes with
  | nil =>
      rw [← flatten_wholeLines bytes, hlines]
      rfl
  | cons line lines ih =>
      rw [reads_whole hlines (h line List.mem_cons_self), List.map_cons]
      rw [ih (wholeLines_eq_cons hlines).1 fun other hm => h other (List.mem_cons_of_mem line hm)]

/-- Whether a feed breaks off between two lines: the last that it yields, if anything, is a line
feed or a failure. -/
def EndsLine (feed : Feed) : Prop :=
  ∀ signal ∈ (feed.filter (· ≠ .interruption)).getLast?,
    signal = .byte lineFeed ∨ ∃ reason, signal = .failure reason

theorem EndsLine.of_cons {signal : Signal} {feed : Feed} (h : EndsLine (signal :: feed)) :
    feed.EndsLine := by
  intro last hl
  apply h last
  by_cases hs : signal = .interruption
  · simpa [hs] using hl
  · rw [List.filter_cons_of_pos (by simpa using hs), List.getLast?_cons, hl]
    rfl

theorem readsFrom_append (length : Nat) (taken : List UInt8) (room : Nat) (feed more : Feed)
    (h : feed.EndsLine) (htaken : feed.filter (· ≠ .interruption) = [] → taken = [])
    (hroom : taken = [] → room = length) :
    (readsFrom length #[] taken room (feed ++ more)).toList =
      (readsFrom length #[] taken room feed).toList ++ more.reads length := by
  induction feed generalizing taken room with
  | nil =>
      obtain rfl := htaken rfl
      obtain rfl := hroom rfl
      simp [readsFrom, reads]
  | cons signal feed ih =>
      have ih := fun taken room => ih taken room h.of_cons
      cases signal with
      | interruption => exact ih taken room (by simpa using htaken) hroom
      | failure reason =>
          simp only [List.cons_append, readsFrom]
          rw [readsFrom_toList, readsFrom_toList _ _ _ _ feed, ih [] length (by simp) (by simp),
            List.append_assoc]
      | byte value =>
          simp only [List.cons_append, readsFrom]
          split
          · rw [readsFrom_toList, readsFrom_toList _ _ _ _ feed, ih [] length (by simp) (by simp),
              List.append_assoc]
          · rename_i hv
            refine ih (value :: taken) (room - 1) (fun hf => ?_) (by simp)
            -- the line that has begun goes on, since it is not what the feed ends with
            rcases h (.byte value) (by rw [List.filter_cons_of_pos (by simp), hf]; rfl) with he | ⟨reason, he⟩
            · exact absurd (.inl (Signal.byte.inj he)) hv
            · cases he

theorem reads_append {feed : Feed} (h : feed.EndsLine) (length : Nat) (more : Feed) :
    (feed ++ more).reads length = feed.reads length ++ more.reads length :=
  readsFrom_append length [] length feed more h (fun _ => rfl) (fun _ => rfl)

end Feed

/-- A line that is read whole and taken: without its terminator it keeps within the limit, and
no line is longer than can be counted. -/
def Limits.Admits (limits : Limits) (line : List UInt8) : Prop :=
  contentLength line ≤ limits.lineLength ∧ line.length ≤ Limits.greatest

theorem Limits.Admits.length_le {limits : Limits} {line : List UInt8} (h : limits.Admits line) :
    line.length ≤ limits.readLength := by
  have hc := (contentLength_bounds line).2
  have hl := h.1
  have hg := h.2
  simp only [readLength]
  omega

theorem Feed.reads_of_admits {limits : Limits} {feed : Feed}
    (hfeed : ∀ reason, .failure reason ∉ feed)
    (hlines : ∀ line ∈ wholeLines feed.content, limits.Admits line) :
    feed.reads limits.readLength = (wholeLines feed.content).map .line := by
  rw [reads_of_no_failure hfeed]
  exact reads_eq_wholeLines fun line hl => (hlines line hl).length_le

end DefinitionFiles
