import DefinitionFiles.Proofs.Row.TwoPhases

namespace DefinitionFiles

open Text

theorem Segment.trim_field (segment : Segment) : trim segment.field = segment.field :=
  trim_eq_self_iff.2 (isTrimmed_trim _)

theorem exists_cut_of_read {limits : Limits} {text : String} {line : Nat}
    {fingerprint : Fingerprint}
    (h : (readLogicalRow limits ⟨[.line (encodeUtf8 text)], line, fingerprint⟩).outcome = .ok true)
    (hne : (readLogicalRow limits ⟨[.line (encodeUtf8 text)], line, fingerprint⟩).row ≠ []) :
    ∃ segments, Cut (trim text).toList segments ∧ segments.any Segment.isOpened = false ∧
      (readLogicalRow limits ⟨[.line (encodeUtf8 text)], line, fingerprint⟩).row =
        segments.map Segment.field ∧
      trim text ≠ "" ∧ startsComment (trim text) = false := by
  obtain ⟨decoded, hdecoded, hlength, -⟩ := readRowFrom_cons_ok h
  obtain rfl : text = decoded := encodeUtf8_inj (LineRead.line.inj hdecoded)
  obtain ⟨segments, hcut⟩ := exists_cut (trim text).toList
  have hline := Split.line_cut hcut (line + 1)
  rw [readLogicalRow_line hlength] at h hne ⊢
  simp only at h hne ⊢
  cases hignored : (trim text).isEmpty || startsComment (trim text) with
  | true => simp [hignored] at hne
  | false =>
      obtain ⟨hblank, hcomment⟩ := Bool.or_eq_false_iff.1 hignored
      simp only [hignored, Bool.false_eq_true, if_false] at h hne ⊢
      cases hopened : segments.any Segment.isOpened with
      | true =>
          rw [hopened, if_pos rfl] at hline
          simp [hline, readRowFrom, Split.atEnd] at h
      | false =>
          rw [hopened, if_neg Bool.false_ne_true] at hline
          obtain ⟨fieldStart, hline⟩ := hline
          simp only [hline, Split.row] at hne ⊢
          refine ⟨segments, hcut, hopened, ?_, by simpa using hblank, hcomment⟩
          rw [Row.unlessBlank_eq] at hne ⊢
          split at hne
          · exact absurd rfl hne
          · rename_i hfilled
            rw [if_neg hfilled]

theorem readLogicalRow_of_cut {limits : Limits} {decoded : String} {segments : List Segment}
    (hlength : contentLength (encodeUtf8 decoded) ≤ limits.lineLength)
    (hcut : Cut (trim decoded).toList segments) (hopened : segments.any Segment.isOpened = false)
    (hblank : trim decoded ≠ "") (hcomment : startsComment (trim decoded) = false)
    (hfilled : ∃ segment ∈ segments, segment.field ≠ "") (rest : List LineRead) (line : Nat)
    (fingerprint : Fingerprint) :
    readLogicalRow limits ⟨.line (encodeUtf8 decoded) :: rest, line, fingerprint⟩ =
      ⟨.ok true, segments.map Segment.field, ⟨rest, line + 1, fingerprint.add (trim decoded)⟩⟩ := by
  have hline := Split.line_cut hcut (line + 1)
  rw [hopened, if_neg Bool.false_ne_true] at hline
  obtain ⟨fieldStart, hline⟩ := hline
  have hignored : ((trim decoded).isEmpty || startsComment (trim decoded)) = false := by
    simp [hblank, hcomment]
  have hrow : Row.unlessBlank (segments.map Segment.field) = segments.map Segment.field := by
    obtain ⟨segment, hsegment, hne⟩ := hfilled
    rw [Row.unlessBlank_eq, if_neg]
    exact fun hall => hne (hall _ (List.mem_map_of_mem hsegment))
  rw [readLogicalRow_line hlength]
  simp only [hignored, Bool.false_eq_true, if_false, hline, Split.row, hrow]

/-- A mark before a line becomes part of its first field, if that is not quoted. -/
theorem Cut.marked {line text : List Char} {segments : List Segment} {mark : Char}
    (h : Cut line (.plain text :: segments)) (hmark : isBlank mark = false)
    (hquote : mark ≠ quoteMark) (hseparator : mark ≠ fieldSeparator) {blanks : List Char}
    (hblanks : ∀ c ∈ blanks, isBlank c = true) :
    Cut (mark :: (blanks ++ line)) (.plain (mark :: (blanks ++ text)) :: segments) := by
  obtain ⟨tail, rfl, hsound, -, hrest⟩ := h.uncons
  have htext : fieldSeparator ∉ text := by
    cases hsound with
    | plain _ hseparator _ => exact hseparator
  have hmarked : (Segment.plain (mark :: (blanks ++ text))).Sound := by
    refine .plain _ ?_ ?_
    · simp only [List.mem_cons, List.mem_append, not_or]
      exact ⟨hseparator.symm, fun hm => (Split.isBlank_mark_separator (hblanks _ hm)).1 rfl, htext⟩
    · simp [hmark, hquote]
  have hline : mark :: (blanks ++ ((Segment.plain text).text ++ tail)) =
      (Segment.plain (mark :: (blanks ++ text))).text ++ tail := by simp [Segment.text]
  rw [hline]
  rcases hrest with ⟨rfl, rfl⟩ | ⟨rest, rfl, hcut⟩
  · rw [List.append_nil]
    exact .last _ hmarked
  · exact .more _ _ _ hmarked rfl hcut

theorem Cut.exists_plain {line : List Char} {segments : List Segment} (h : Cut line segments)
    (hfirst : ∀ c ∈ line.head?, isBlank c = false ∧ c ≠ quoteMark) :
    ∃ text others, segments = .plain text :: others ∧ ∀ c ∈ text.head?, isBlank c = false := by
  obtain ⟨segment, others, rfl⟩ := List.exists_cons_of_ne_nil h.ne_nil
  obtain ⟨tail, rfl, hsound, -, -⟩ := h.uncons
  have hsection : ∀ before inside : List Char, (∀ c ∈ before, isBlank c = true) →
      segment.text ++ tail ≠ before ++ quoteMark :: inside := by
    intro before inside hbefore htext
    rw [htext] at hfirst
    cases before with
    | nil => exact (hfirst quoteMark rfl).2 rfl
    | cons c before =>
        have hblank := (hfirst c rfl).1
        rw [hbefore c List.mem_cons_self] at hblank
        cases hblank
  cases hsound with
  | plain text =>
      refine ⟨text, others, rfl, fun c hc => (hfirst c ?_).1⟩
      rw [Segment.text, List.head?_append, hc]
      rfl
  | quoted before body after hbefore =>
      exact absurd (Segment.text_quoted_append before body after tail) (hsection _ _ hbefore)
  | opened before body hbefore =>
      exact absurd (Segment.text_opened_append before body tail) (hsection _ _ hbefore)

def marked (text : String) : String := String.ofList (defaultMark :: text.toList)

def leadingBlanks (text : String) : String := String.ofList (text.toList.takeWhile isBlank)

theorem isBlank_leadingBlanks (text : String) : ∀ c ∈ (leadingBlanks text).toList, isBlank c = true := by
  rw [leadingBlanks, String.toList_ofList]
  exact fun c hc => List.mem_takeWhile_imp hc

theorem head?_trim_of_start {text : String}
    (htext : ∀ c ∈ text.toList.head?, isBlank c = false ∧ c ≠ quoteMark) :
    (∀ c ∈ (trim text).toList.head?, c ≠ quoteMark) ∧ leadingBlanks text = "" := by
  have hstart : trimStart text.toList = text.toList :=
    trimStart_of_head? fun c hc => (htext c hc).1
  rw [toList_trim, hstart, leadingBlanks]
  cases ht : text.toList with
  | nil => exact ⟨by simp [trimEnd], rfl⟩
  | cons c rest =>
      obtain ⟨hc, hquote⟩ := htext c (by rw [ht]; rfl)
      have hend : trimEnd (c :: rest) = c :: trimEnd rest := trimEnd_append_cons hc [] rest
      rw [hend, List.takeWhile_cons_of_neg (by simp [hc])]
      exact ⟨by simpa using hquote, rfl⟩

theorem trimEnd_eq_append {text : String} (h : trim text ≠ "") :
    trimEnd text.toList = (leadingBlanks text).toList ++ (trim text).toList := by
  rw [toList_trim, leadingBlanks, String.toList_ofList]
  cases hstart : trimStart text.toList with
  | nil =>
      refine absurd (String.toList_eq_nil_iff.1 ?_) h
      rw [toList_trim, hstart]
      rfl
  | cons c rest =>
      have hc : isBlank c = false := head?_trimStart text.toList c (by rw [hstart]; rfl)
      have htext : text.toList = text.toList.takeWhile isBlank ++ c :: rest := by
        rw [← hstart, trimStart, List.takeWhile_append_dropWhile]
      have hend : trimEnd (c :: rest) = c :: trimEnd rest := trimEnd_append_cons hc [] rest
      rw [hend, ← trimEnd_append_cons hc, ← htext]

theorem trim_marked (text : String) :
    (trim (marked text)).toList = defaultMark :: trimEnd text.toList := by
  have hmark : isBlank defaultMark = false := by decide
  have hstart : trimStart (defaultMark :: text.toList) = defaultMark :: text.toList :=
    trimStart_append_cons hmark [] text.toList
  have hend : trimEnd (defaultMark :: text.toList) = defaultMark :: trimEnd text.toList :=
    trimEnd_append_cons hmark [] text.toList
  rw [toList_trim, marked, String.toList_ofList, hstart, hend]

/-- A line that is marked reads as it does without the mark, but that the first field is marked
and that the blanks after the mark remain. -/
theorem readLogicalRow_marked {limits : Limits} {text : String} {line : Nat}
    {fingerprint : Fingerprint} {row : Row} {first : String}
    (hquote : ∀ c ∈ (trim text).toList.head?, c ≠ quoteMark)
    (halone : (readLogicalRow limits ⟨[.line (encodeUtf8 text)], line, fingerprint⟩).outcome =
      .ok true)
    (hrow : (readLogicalRow limits ⟨[.line (encodeUtf8 text)], line, fingerprint⟩).row =
      first :: row) (hne : first ≠ "")
    (hlength : contentLength (encodeUtf8 (marked text)) ≤ limits.lineLength)
    (rest : List LineRead) :
    readLogicalRow limits ⟨.line (encodeUtf8 (marked text)) :: rest, line, fingerprint⟩ =
      ⟨.ok true, marked (leadingBlanks text ++ first) :: row,
        ⟨rest, line + 1, fingerprint.add (trim (marked text))⟩⟩ := by
  obtain ⟨segments, hcut, hopened, hsegments, hblank, -⟩ :=
    exists_cut_of_read halone (by rw [hrow]; exact List.cons_ne_nil first row)
  obtain ⟨value, others, rfl, hvalue⟩ := hcut.exists_plain fun c hc =>
    ⟨(isTrimmed_trim text).1 c hc, hquote c hc⟩
  obtain ⟨rfl, rfl⟩ := List.cons.inj (hrow.symm.trans hsegments)
  -- the first field begins where the line does, so that it is only trimmed at its end
  have hfirst : (Segment.plain value).field.toList = trimEnd value := by
    rw [Segment.field, toList_trim, Segment.value, String.toList_ofList, trimStart_of_head? hvalue]
  have hmarkedCut : Cut (trim (marked text)).toList
      (.plain (defaultMark :: ((leadingBlanks text).toList ++ value)) :: others) := by
    rw [trim_marked, trimEnd_eq_append hblank]
    exact hcut.marked (by decide) (by decide) (by decide) (isBlank_leadingBlanks text)
  have hfield : (Segment.plain (defaultMark :: ((leadingBlanks text).toList ++ value))).field =
      marked (leadingBlanks text ++ (Segment.plain value).field) := by
    obtain ⟨c, more, rfl⟩ : ∃ c more, value = c :: more := by
      apply List.exists_cons_of_ne_nil
      rintro rfl
      exact hne (String.toList_eq_nil_iff.1 hfirst)
    have hc : isBlank c = false := hvalue c rfl
    have hend : trimEnd (c :: more) = c :: trimEnd more := trimEnd_append_cons hc [] more
    have htext := trim_marked (leadingBlanks text ++ String.ofList (c :: more))
    rw [String.toList_append, String.toList_ofList, trimEnd_append_cons hc, ← hend, ← hfirst,
      ← String.toList_append] at htext
    apply String.toList_inj.1
    rw [marked, String.toList_ofList, ← htext, Segment.field, Segment.value, marked,
      String.toList_append, String.toList_ofList]
  have hhead : (trim (marked text)).toList.head? = some defaultMark := by
    rw [trim_marked, List.head?_cons]
  have hread := readLogicalRow_of_cut hlength hmarkedCut hopened
    (fun he => by simp [he] at hhead)
    (by rw [startsComment, hhead]; decide)
    ⟨_, List.mem_cons_self, by rw [hfield]; simp [marked]⟩ rest line fingerprint
  rw [hread, List.map_cons, hfield]

end DefinitionFiles
