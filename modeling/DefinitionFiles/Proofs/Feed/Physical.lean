import DefinitionFiles.Proofs.Feed.Lines
import DefinitionFiles.Proofs.Text.Trim

namespace DefinitionFiles

/-- The physical lines of some bytes, without their line feeds. What follows the last line
feed is a line as well, unless nothing follows it. -/
def physicalLines (bytes : List UInt8) : List (List UInt8) :=
  let pieces := bytes.splitOn lineFeed
  if pieces.getLast? = some [] then pieces.dropLast else pieces

theorem physicalLines_lineFeed {line : List UInt8} (h : lineFeed ∉ line) (rest : List UInt8) :
    physicalLines (line ++ lineFeed :: rest) = line :: physicalLines rest := by
  obtain ⟨piece, pieces, hp⟩ := List.exists_cons_of_ne_nil (List.splitOn_ne_nil lineFeed rest)
  simp only [physicalLines, List.splitOn_append_cons_self, List.splitOn_eq_singleton h, hp,
    List.singleton_append, List.getLast?_cons_cons, List.dropLast_cons_cons]
  split <;> rfl

theorem physicalLines_of_not_mem {line : List UInt8} (h : lineFeed ∉ line) (hne : line ≠ []) :
    physicalLines line = [line] := by
  simp [physicalLines, List.splitOn_eq_singleton h, hne]

theorem exists_physicalLine (start : List UInt8) (h : lineFeed ∉ start) (hne : start ≠ [])
    (rest : List UInt8) : ∃ line ∈ physicalLines (start ++ rest), start <+: line := by
  by_cases hr : lineFeed ∈ rest
  · obtain ⟨more, later, rfl, hm⟩ := List.eq_append_cons_of_mem hr
    refine ⟨start ++ more, ?_, List.prefix_append start more⟩
    rw [← List.append_assoc, physicalLines_lineFeed (by simp [h, hm])]
    exact List.mem_cons_self
  · refine ⟨start ++ rest, ?_, List.prefix_append start rest⟩
    rw [physicalLines_of_not_mem (by simp [h, hr]) (by simp [hne])]
    exact List.mem_singleton_self _

def unterminated (bytes : List UInt8) : List UInt8 :=
  if bytes.getLast? = some lineFeed then bytes.dropLast else bytes

theorem unterminated_concat (line : List UInt8) : unterminated (line ++ [lineFeed]) = line := by
  simp [unterminated]

theorem unterminated_of_not_mem {line : List UInt8} (h : lineFeed ∉ line) :
    unterminated line = line :=
  if_neg fun hl => h (List.mem_of_getLast? hl)

theorem Text.exists_line_of_encodeUtf8 {text : String}
    (h : lineFeed ∉ (encodeUtf8 text).dropLast) :
    ∃ line : String, '\n' ∉ line.toList ∧ encodeUtf8 line = unterminated (encodeUtf8 text) ∧
      trim line = trim text := by
  have hmem : ∀ line : String, lineFeed ∉ encodeUtf8 line → '\n' ∉ line.toList := by
    intro line hl hm
    apply hl
    rw [encodeUtf8_eq_flatMap, List.mem_flatMap]
    exact ⟨'\n', hm, by decide⟩
  by_cases hl : (encodeUtf8 text).getLast? = some lineFeed
  · obtain ⟨before, hb⟩ := List.getLast?_eq_some_iff.1 (getLast?_of_encodeUtf8 (d := '\n') (by decide) hl)
    obtain rfl : text = (String.ofList before).push '\n' := by
      apply String.ext
      simp [hb]
    rw [encodeUtf8_push_lineFeed, List.dropLast_concat] at h
    refine ⟨String.ofList before, hmem _ h, ?_, (trim_push_blank _ (by decide)).symm⟩
    rw [encodeUtf8_push_lineFeed, unterminated_concat]
  · have hn : lineFeed ∉ encodeUtf8 text := by
      intro hm
      rcases List.eq_nil_or_concat (encodeUtf8 text) with he | ⟨before, last, he⟩
      · simp [he] at hm
      · rw [he] at hm h hl
        simp_all
    exact ⟨text, hmem text hn, (unterminated_of_not_mem hn).symm, rfl⟩

theorem Text.exists_lines {texts : List String}
    (h : ∀ text ∈ texts, lineFeed ∉ (encodeUtf8 text).dropLast) :
    ∃ lines : List String, lines.map encodeUtf8 = (texts.map encodeUtf8).map unterminated ∧
      lines.map trim = texts.map trim := by
  induction texts with
  | nil => exact ⟨[], rfl, rfl⟩
  | cons text texts ih =>
      obtain ⟨line, -, hl, ht⟩ := exists_line_of_encodeUtf8 (h text List.mem_cons_self)
      obtain ⟨lines, hls, hts⟩ := ih fun text hm => h text (List.mem_cons_of_mem _ hm)
      exact ⟨line :: lines, by simp [hl, hls], by simp [ht, hts]⟩

namespace Feed

def content (feed : Feed) : List UInt8 :=
  feed.filterMap fun
    | .byte value => some value
    | .failure _ | .interruption => none

def lines (feed : Feed) : List (List UInt8) := physicalLines feed.content

theorem lineFeed_not_mem_dropLast (length : Nat) (taken : List UInt8) (h : lineFeed ∉ taken)
    (room : Nat) (feed : Feed) :
    ∀ bytes, .line bytes ∈ (readsFrom length #[] taken room feed).toList →
      lineFeed ∉ bytes.dropLast := by
  induction feed generalizing taken room with
  | nil =>
      intro bytes hb
      by_cases ht : taken.isEmpty
      · simp [readsFrom, ht] at hb
      · have he : bytes = taken.reverse := by simpa [readsFrom, ht] using hb
        exact fun hm => h (by simpa [he] using List.dropLast_subset _ hm)
  | cons signal rest ih =>
      intro bytes hb
      cases signal with
      | interruption => exact ih taken h room bytes hb
      | failure reason =>
          rw [readsFrom, readsFrom_toList] at hb
          exact ih [] (by simp) length bytes (by simpa using hb)
      | byte value =>
          rw [readsFrom] at hb
          split at hb
          · rw [readsFrom_toList] at hb
            rcases List.mem_append.1 hb with hb | hb
            · have he : bytes = taken.reverse ++ [value] := by simpa using hb
              simpa [he] using h
            · exact ih [] (by simp) length bytes hb
          · rename_i hv
            have hn : value ≠ lineFeed := fun he => hv (.inl he)
            exact ih (value :: taken) (by simp [h, hn.symm]) (room - 1) bytes hb

theorem lineFeed_of_mem_reads {length : Nat} {feed : Feed} {bytes : List UInt8}
    (h : .line bytes ∈ feed.reads length) : lineFeed ∉ bytes.dropLast :=
  lineFeed_not_mem_dropLast length [] (by simp) length feed bytes h

theorem failed_mem_readsFrom {reason : String} {feed : Feed} (h : .failure reason ∈ feed)
    (length : Nat) (taken : List UInt8) (room : Nat) :
    .failed reason ∈ (readsFrom length #[] taken room feed).toList := by
  induction feed generalizing taken room with
  | nil => cases h
  | cons signal rest ih =>
      cases signal with
      | interruption => exact ih (by simpa using h) taken room
      | failure other =>
          rw [readsFrom, readsFrom_toList]
          rcases List.mem_cons.1 h with hs | hr
          · cases hs
            simp
          · exact List.mem_append_right _ (ih hr [] length)
      | byte value =>
          have hr : .failure reason ∈ rest := by simpa using h
          rw [readsFrom]
          split
          · rw [readsFrom_toList]
            exact List.mem_append_right _ (ih hr [] length)
          · exact ih hr (value :: taken) (room - 1)

/-- Physical lines are read whole, unless one is cut for want of room. -/
def ReadsWhole (length : Nat) (lines : List (List UInt8)) (reads : List LineRead) : Prop :=
  (∃ read : List (List UInt8), reads = read.map .line ∧ read.map unterminated = lines) ∨
    ∃ bytes, .line bytes ∈ reads ∧ lineFeed ∉ bytes ∧ length ≤ bytes.length ∧
      ∃ line ∈ lines, bytes <+: line

theorem ReadsWhole.cons {length : Nat} {lines : List (List UInt8)} {reads : List LineRead}
    (h : ReadsWhole length lines reads) (line : List UInt8) :
    ReadsWhole length (line :: lines) (.line (line ++ [lineFeed]) :: reads) := by
  rcases h with ⟨read, rfl, rfl⟩ | ⟨bytes, hb, hn, hl, whole, hw, hp⟩
  · exact .inl ⟨(line ++ [lineFeed]) :: read, rfl, by simp [unterminated_concat]⟩
  · exact .inr ⟨bytes, List.mem_cons_of_mem _ hb, hn, hl, whole, List.mem_cons_of_mem _ hw, hp⟩

theorem readsFrom_readsWhole {length : Nat} {feed : Feed}
    (hfeed : ∀ reason, .failure reason ∉ feed) (taken : List UInt8) (h : lineFeed ∉ taken)
    (room : Nat) (hroom : length ≤ taken.length + room) :
    ReadsWhole length (physicalLines (taken.reverse ++ feed.content))
      (readsFrom length #[] taken room feed).toList := by
  induction feed generalizing taken room with
  | nil =>
      left
      cases taken with
      | nil => exact ⟨[], rfl, rfl⟩
      | cons last before =>
          have hr : lineFeed ∉ (last :: before).reverse := mt List.mem_reverse.1 h
          refine ⟨[(last :: before).reverse], by simp [readsFrom], ?_⟩
          rw [content, List.filterMap_nil, List.append_nil, physicalLines_of_not_mem hr (by simp),
            List.map_singleton, unterminated_of_not_mem hr]
  | cons signal rest ih =>
      have ih := @ih fun reason hm => hfeed reason (List.mem_cons_of_mem signal hm)
      cases signal with
      | interruption => exact ih taken h room hroom
      | failure reason => exact absurd List.mem_cons_self (hfeed reason)
      | byte value =>
          have hc : content (.byte value :: rest) = value :: content rest := rfl
          rw [readsFrom, hc]
          by_cases hv : value = lineFeed
          · subst hv
            rw [if_pos (.inl rfl), readsFrom_toList, physicalLines_lineFeed (by simpa using h)]
            have hi := (ih [] (by simp) length (Nat.le_add_left length 0)).cons taken.reverse
            simpa using hi
          · have hn : lineFeed ∉ value :: taken := by simp [h, Ne.symm hv]
            by_cases hone : room ≤ 1
            · right
              have hr : lineFeed ∉ (value :: taken).reverse := mt List.mem_reverse.1 hn
              obtain ⟨line, hline, hp⟩ :=
                exists_physicalLine (value :: taken).reverse hr (by simp) (content rest)
              rw [if_pos (.inr hone), readsFrom_toList]
              refine ⟨(value :: taken).reverse, by simp, hr, ?_, line, ?_, hp⟩
              · simp only [List.length_reverse, List.length_cons]
                omega
              · simpa using hline
            · rw [if_neg (not_or.2 ⟨hv, hone⟩)]
              have hi := ih (value :: taken) hn (room - 1) (by simp only [List.length_cons]; omega)
              simpa using hi

theorem reads_readsWhole {feed : Feed} (hfeed : ∀ reason, .failure reason ∉ feed) (length : Nat) :
    ReadsWhole length feed.lines (feed.reads length) :=
  readsFrom_readsWhole hfeed [] (by simp) length (Nat.le_add_left length 0)

end Feed

end DefinitionFiles
