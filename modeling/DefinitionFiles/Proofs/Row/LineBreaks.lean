import DefinitionFiles.Proofs.Reading.Script
import DefinitionFiles.Proofs.Row.Joining
import DefinitionFiles.Proofs.Row.TwoPhases

namespace DefinitionFiles

open Text

def lineTexts (text : List Char) : List String :=
  (text.splitOn '\n').map fun line => trim (String.ofList line)

theorem lineTexts_of_not_mem {text : List Char} (h : '\n' ∉ text) :
    lineTexts text = [trim (String.ofList text)] := by
  rw [lineTexts, List.splitOn_eq_singleton h, List.map_singleton]

theorem lineTexts_append (text more : List Char) :
    lineTexts (text ++ '\n' :: more) = lineTexts text ++ lineTexts more := by
  rw [lineTexts, List.splitOn_append_cons_self, List.map_append]
  rfl

theorem lineTexts_lineFeed {first : List Char} (h : '\n' ∉ first) (rest : List Char) :
    lineTexts (first ++ '\n' :: rest) = trim (String.ofList first) :: lineTexts rest := by
  rw [lineTexts_append, lineTexts_of_not_mem h, List.singleton_append]

theorem lineTexts_ne_nil (text : List Char) : lineTexts text ≠ [] :=
  mt List.map_eq_nil_iff.1 (List.splitOn_ne_nil '\n' text)

theorem lineTexts_trimStart {start : List Char} (h : '\n' ∉ start) (rest : List Char) :
    lineTexts (trimStart start ++ rest) = lineTexts (start ++ rest) := by
  have hstart : '\n' ∉ trimStart start := fun hm => h (mem_trimStart hm)
  by_cases hm : '\n' ∈ rest
  · obtain ⟨first, more, rfl, hfirst⟩ := List.eq_append_cons_of_mem hm
    rw [← List.append_assoc, ← List.append_assoc, lineTexts_lineFeed (by simp [hstart, hfirst]),
      lineTexts_lineFeed (by simp [h, hfirst]), trim_trimStart_append]
  · rw [lineTexts_of_not_mem (by simp [hstart, hm]), lineTexts_of_not_mem (by simp [h, hm]),
      trim_trimStart_append]

theorem lines_induction {motive : List Char → Prop} (last : ∀ line, '\n' ∉ line → motive line)
    (line : ∀ line rest, '\n' ∉ line → motive rest → motive (line ++ '\n' :: rest))
    (text : List Char) : motive text := by
  generalize hn : text.length = n
  induction n using Nat.strongRecOn generalizing text with
  | ind n ih =>
      by_cases hm : '\n' ∈ text
      · obtain ⟨first, rest, rfl, hfirst⟩ := List.eq_append_cons_of_mem hm
        refine line first rest hfirst (ih rest.length ?_ rest rfl)
        simp only [List.length_append, List.length_cons] at hn
        omega
      · exact last text hm

theorem lineTexts_trimEnd {last : List Char} (h : '\n' ∉ last) (text : List Char) :
    lineTexts (text ++ trimEnd last) = lineTexts (text ++ last) := by
  have hlast : '\n' ∉ trimEnd last := fun hm => h (mem_trimEnd hm)
  induction text using lines_induction with
  | last line hline =>
      rw [lineTexts_of_not_mem (by simp [hline, hlast]), lineTexts_of_not_mem (by simp [hline, h]),
        trim_append_trimEnd]
  | line line rest hline ih =>
      rw [List.append_assoc, List.append_assoc, List.cons_append, List.cons_append,
        lineTexts_lineFeed hline, lineTexts_lineFeed hline, ih]

theorem wholeLines_terminated (text : List Char) :
    wholeLines (encodeUtf8 ((String.ofList text).push '\n')) =
      (text.splitOn '\n').map fun line => encodeUtf8 ((String.ofList line).push '\n') := by
  have hone : ∀ line : List Char, '\n' ∉ line → ∀ rest,
      wholeLines (encodeUtf8 ((String.ofList line).push '\n') ++ rest) =
        encodeUtf8 ((String.ofList line).push '\n') :: wholeLines rest := by
    intro line hline rest
    have hbytes : lineFeed ∉ encodeUtf8 (String.ofList line) :=
      lineFeed_not_mem_encodeUtf8 (by simpa using hline)
    rw [encodeUtf8_push_lineFeed, List.append_assoc, List.singleton_append,
      wholeLines_lineFeed hbytes]
  induction text using lines_induction with
  | last line h =>
      have hline := hone line h []
      rw [List.append_nil] at hline
      rw [hline, List.splitOn_eq_singleton h]
      rfl
  | line line rest h ih =>
      have htext : (String.ofList (line ++ '\n' :: rest)).push '\n' =
          (String.ofList line).push '\n' ++ (String.ofList rest).push '\n' := by
        apply String.ext
        simp
      rw [htext, encodeUtf8_append, hone line h, ih, List.splitOn_append_cons_self,
        List.splitOn_eq_singleton h]
      rfl

theorem paired_doubleQuotes (value : List Char) : Paired (doubleQuotes value) := by
  induction value with
  | nil => exact .nil
  | cons c value ih =>
      by_cases hc : c = quoteMark
      · simpa [doubleQuotes, hc] using Paired.pair _ ih
      · simpa [doubleQuotes, hc] using Paired.char c _ hc ih

theorem halve_doubleQuotes (value : List Char) : halve (doubleQuotes value) = value := by
  induction value with
  | nil => rfl
  | cons c value ih =>
      rw [doubleQuotes] at ih
      by_cases hc : c = quoteMark
      · simp [doubleQuotes, hc, halve_pair, ih]
      · simp [doubleQuotes, hc, halve_char hc, ih]

theorem doubleQuotes_append (value more : List Char) :
    doubleQuotes (value ++ more) = doubleQuotes value ++ doubleQuotes more :=
  List.flatMap_append

theorem reverse_doubleQuotes (value : List Char) :
    (doubleQuotes value).reverse = doubleQuotes value.reverse := by
  induction value with
  | nil => rfl
  | cons c value ih =>
      have hone : (doubleQuotes [c]).reverse = doubleQuotes [c] := by
        by_cases hc : c = quoteMark <;> simp [doubleQuotes, hc]
      rw [← List.singleton_append, doubleQuotes_append, List.reverse_append, ih, hone,
        List.reverse_append, doubleQuotes_append]
      rfl

theorem trimStart_doubleQuotes (value : List Char) :
    trimStart (doubleQuotes value) = doubleQuotes (trimStart value) := by
  induction value with
  | nil => rfl
  | cons c value ih =>
      rw [doubleQuotes, trimStart] at ih
      cases hb : isBlank c with
      | true =>
          have hc : c ≠ quoteMark := (Split.isBlank_mark_separator hb).2
          simp [doubleQuotes, trimStart, hc, hb, ih]
      | false =>
          by_cases hc : c = quoteMark
          · have hq : isBlank quoteMark = false := by decide
            simp [doubleQuotes, trimStart, hc, hq]
          · simp [doubleQuotes, trimStart, hc, hb]

theorem trimEnd_doubleQuotes (value : List Char) :
    trimEnd (doubleQuotes value) = doubleQuotes (trimEnd value) := by
  rw [← List.reverse_inj, reverse_trimEnd, reverse_doubleQuotes, trimStart_doubleQuotes,
    reverse_doubleQuotes, reverse_trimEnd]

theorem trim_doubleQuotes (value : List Char) :
    (trim (String.ofList (doubleQuotes value))).toList =
      doubleQuotes (trim (String.ofList value)).toList := by
  rw [toList_trim, toList_trim, String.toList_ofList, String.toList_ofList,
    trimStart_doubleQuotes, trimEnd_doubleQuotes]

theorem lineFeed_not_mem_doubleQuotes {value : List Char} (h : '\n' ∉ value) :
    '\n' ∉ doubleQuotes value := by
  rw [doubleQuotes, List.mem_flatMap]
  rintro ⟨c, hc, hm⟩
  split at hm
  · exact absurd hm (by decide)
  · exact h (List.mem_singleton.1 hm ▸ hc)

/-- A value of several lines as it is read: on one line. -/
def joinedLines (value : String) : String := joinedText (lineTexts value.toList)

theorem joinedWith_ne_empty (joined text : String) : joinedWith joined text ≠ "" := by
  by_cases h : joined = ""
  · subst h
    simp [joinedWith, String.back?_eq]
  · exact ne_empty_joinedWith h text

theorem joinedLines_ne_empty {value : String} (h : trim value ≠ "") : joinedLines value ≠ "" := by
  by_cases hm : '\n' ∈ value.toList
  · obtain ⟨first, rest, htext, hfirst⟩ := List.eq_append_cons_of_mem hm
    obtain ⟨before, last, hlast⟩ := List.eq_nil_or_concat (lineTexts rest) |>.resolve_left
      (lineTexts_ne_nil rest)
    rw [joinedLines, htext, lineTexts_lineFeed hfirst, joinedText, hlast, List.concat_eq_append,
      List.foldl_append]
    exact joinedWith_ne_empty _ last
  · rw [joinedLines, lineTexts_of_not_mem hm, String.ofList_toList]
    exact h

def EndsSolid (text : List Char) : Prop := ∀ c ∈ text.getLast?, isBlank c = false

theorem EndsSolid.append_cons {text more : List Char} {c : Char} (hc : isBlank c = false)
    (hmore : EndsSolid more) : EndsSolid (text ++ c :: more) := by
  rw [← trimEnd_of_getLast? hmore, ← trimEnd_append_cons hc]
  exact getLast?_trimEnd _

def gapAfter (text : List Char) : List Char :=
  if text.getLast? = some valueSeparator then [] else [valueSeparator]

theorem toList_joinedWith_eq (joined text : String) :
    (joinedWith joined text).toList = joined.toList ++ (gapAfter joined.toList ++ text.toList) := by
  by_cases h : joined.toList.getLast? = some valueSeparator <;>
    simp [joinedWith, gapAfter, String.back?_eq, h]

theorem endsSolid_joinedWith (joined : String) {text : String} (h : EndsSolid text.toList) :
    EndsSolid (joinedWith joined text).toList := by
  have hs : isBlank valueSeparator = false := by decide
  rw [toList_joinedWith_eq, gapAfter]
  by_cases hlast : joined.toList.getLast? = some valueSeparator
  · obtain ⟨before, hbefore⟩ := List.getLast?_eq_some_iff.1 hlast
    rw [if_pos hlast, hbefore, List.append_assoc]
    exact h.append_cons hs
  · rw [if_neg hlast]
    exact h.append_cons hs

/-- The blanks around what is joined have no bearing on what it is joined to. -/
theorem trim_joinedWith {joined text : String} (hjoined : EndsSolid joined.toList)
    (htext : ∀ c ∈ text.toList.head?, isBlank c = false) :
    trim (joinedWith joined text) = joinedWith (trim joined) (trim text) := by
  have hs : isBlank valueSeparator = false := by decide
  have hgap : ∀ before, trimEnd (gapAfter before ++ text.toList) =
      gapAfter before ++ trimEnd text.toList := by
    intro before
    rw [gapAfter]
    split
    · rfl
    · exact trimEnd_append_cons hs [] text.toList
  rw [← String.toList_inj, toList_trim, toList_joinedWith_eq, toList_joinedWith_eq, toList_trim,
    toList_trim, trimStart_of_head? htext]
  rcases List.eq_nil_or_concat joined.toList with hnil | ⟨before, c, hc⟩
  · have hfirst : trimStart (gapAfter [] ++ text.toList) = gapAfter [] ++ text.toList :=
      trimStart_append_cons hs [] text.toList
    rw [hnil, List.nil_append, hfirst, hgap]
    rfl
  · have hblank : isBlank c = false := hjoined c (by simp [hc])
    have hgapAfter : ∀ start, gapAfter (start ++ [c]) = gapAfter [c] := by
      intro start
      simp [gapAfter]
    have hend : trimEnd (trimStart before ++ [c]) = trimStart before ++ [c] :=
      trimEnd_append_cons hblank (trimStart before) []
    rw [hc, List.concat_eq_append, hgapAfter, List.append_assoc, List.singleton_append,
      trimStart_append_cons hblank, trimEnd_append_cons hblank, hgap,
      trimStart_append_cons hblank, hend, hgapAfter, List.append_assoc, List.singleton_append]

namespace Split

def entered (split : Split) : Split :=
  match split.place with
  | .quoted _ => split.joinLine
  | .outside _ => split

/-- The line that begins so has been split up to the end of a field, of which the text is held. -/
structure AfterField (lineNo : Nat) (split : Split) (start : List Char) (fields : Array String)
    (held : String) : Prop where
  unbroken : '\n' ∉ start
  trimmed : IsTrimmed start
  scanned : ∀ rest, rest = [] ∨ (∃ more, rest = fieldSeparator :: more) →
    ∃ fieldStart, scan lineNo (start ++ rest) split.entered =
      scan lineNo rest ⟨fields, held, .outside fieldStart⟩

structure AtField (lineNo : Nat) (split : Split) (start : List Char) (fields : Array String) :
    Prop where
  unbroken : '\n' ∉ start
  trimmed : IsTrimmed start
  scanned : ∀ rest, scan lineNo (start ++ rest) split.entered =
    scan lineNo rest ⟨fields, "", .outside true⟩

variable {line lineNo openedOn : Nat} {split : Split} {start tail : List Char}
  {fields : Array String} {held : String}

theorem takeLine_eq_scan {text : String} {fields' : Array String} {fieldStart : Bool}
    (h : scan lineNo text.toList split.entered = ⟨fields', "", .outside fieldStart⟩) :
    ∃ fieldStart', split.takeLine lineNo text = ⟨fields', "", .outside fieldStart'⟩ := by
  obtain ⟨fields, held, place⟩ := split
  cases place with
  | outside start => exact line_eq_scan h
  | quoted openedOn =>
      have hplace := place_joinLine ⟨fields, held, .quoted openedOn⟩
      exact ⟨fieldStart, by simp only [takeLine, Split.line, hplace]; exact h⟩

theorem takeLine_eq_scan_quoted {text : String}
    (h : (scan lineNo text.toList split.entered).place = .quoted openedOn) :
    split.takeLine lineNo text = scan lineNo text.toList split.entered := by
  obtain ⟨fields, held, place⟩ := split
  cases place with
  | outside start => exact line_of_scan_quoted h
  | quoted other =>
      have hplace := place_joinLine ⟨fields, held, .quoted other⟩
      simp only [takeLine, Split.line, hplace, entered]

theorem atField_empty (lineNo : Nat) : AtField lineNo {} [] #[] :=
  ⟨List.not_mem_nil, by simp [IsTrimmed], fun _ => rfl⟩

theorem AfterField.next (h : AfterField lineNo split start fields held) :
    AtField lineNo split (start ++ [fieldSeparator]) (fields.push (trim held)) where
  unbroken := by simp [h.unbroken, fieldSeparator]
  trimmed := h.trimmed.append_cons (by decide) (by simp [IsTrimmed])
  scanned rest := by
    obtain ⟨fieldStart, hscan⟩ := h.scanned (fieldSeparator :: rest) (.inr ⟨rest, rfl⟩)
    rw [List.append_assoc, List.singleton_append, hscan, scan_separator]

theorem AfterField.last (h : AfterField (line + 1) split start fields held)
    (hignores : split.ignores (String.ofList start) = false) :
    split.Makes line [String.ofList start]
      (Row.unlessBlank (fields.push (trim held)).toList) := by
  obtain ⟨fieldStart, hscan⟩ := h.scanned [] (.inl rfl)
  have hline : scan (line + 1) (String.ofList start).toList split.entered =
      ⟨fields.push (trim held), "", .outside fieldStart⟩ := by
    rw [String.toList_ofList, ← List.append_nil start, hscan, scan_nil]
    rfl
  obtain ⟨fieldStart', htake⟩ := takeLine_eq_scan hline
  have hplace : (split.takeLine (line + 1) (String.ofList start)).place = .outside fieldStart' := by
    rw [htake]
  have hrow : (split.takeLine (line + 1) (String.ofList start)).row =
      (fields.push (trim held)).toList := by
    rw [htake]
    rfl
  exact hrow ▸ .closed line split _ fieldStart' hignores hplace

theorem lineTexts_start (h : '\n' ∉ start) (htrimmed : IsTrimmed start) :
    lineTexts start = [String.ofList start] := by
  rw [lineTexts_of_not_mem h, trim_eq_self_iff.2 (by rwa [String.toList_ofList])]

theorem AtField.field (h : AtField lineNo split start fields) {value : String}
    (hvalue : '\n' ∉ value.toList) :
    AfterField lineNo split (start ++ (writtenField value).toList) fields value where
  unbroken := by simp [h.unbroken, lineFeed_not_mem_writtenField hvalue]
  trimmed := h.trimmed.append (isTrimmed_writtenField value)
  scanned rest hrest := by
    rw [List.append_assoc, h.scanned]
    exact scan_writtenField lineNo value fields hrest

theorem AtField.opened (h : AtField lineNo split start fields) (first : List Char) :
    let text := String.ofList (start ++ quoteMark :: doubleQuotes first)
    split.takeLine lineNo (trim text) =
      ⟨fields, String.ofList (trimEnd first), .quoted lineNo⟩ := by
  intro text
  have hmark : isBlank quoteMark = false := by decide
  have htrim : (trim text).toList = start ++ quoteMark :: doubleQuotes (trimEnd first) := by
    have hstart := (trimStart_append_cons hmark start []).symm.trans
      (trimStart_of_head? (h.trimmed.append_cons hmark (by simp [IsTrimmed])).1)
    rw [toList_trim, String.toList_ofList, trimStart_append_cons hmark,
      List.append_cancel_right hstart, trimEnd_append_cons hmark, trimEnd_doubleQuotes]
  have hscan : scan lineNo (trim text).toList split.entered =
      ⟨fields, String.ofList (trimEnd first), .quoted lineNo⟩ := by
    rw [htrim, h.scanned, scan_mark, scan_all_paired (paired_doubleQuotes _), halve_doubleQuotes,
      String.empty_append]
  have hplace : (scan lineNo (trim text).toList split.entered).place = .quoted lineNo := by
    rw [hscan]
  rw [takeLine_eq_scan_quoted hplace, hscan]

theorem entered_quoted (fields : Array String) (held : String) (openedOn : Nat) :
    entered ⟨fields, held, .quoted openedOn⟩ = ⟨fields, joinedWith held "", .quoted openedOn⟩ := by
  simp only [entered, joinLine, joinedWith, String.append_empty]
  split <;> rfl

theorem takeLine_further (fields : Array String) (held : String) (openedOn lineNo : Nat)
    (more : List Char) :
    let text := String.ofList (doubleQuotes more)
    takeLine lineNo (trim text) ⟨fields, held, .quoted openedOn⟩ =
      ⟨fields, joinedWith held (trim (String.ofList more)), .quoted openedOn⟩ := by
  intro text
  have hscan : scan lineNo (trim text).toList (entered ⟨fields, held, .quoted openedOn⟩) =
      ⟨fields, joinedWith held (trim (String.ofList more)), .quoted openedOn⟩ := by
    rw [trim_doubleQuotes, entered_quoted, scan_all_paired (paired_doubleQuotes _),
      halve_doubleQuotes, String.ofList_toList, joinedWith, joinedWith, String.append_empty]
  have hplace : (scan lineNo (trim text).toList (entered ⟨fields, held, .quoted openedOn⟩)).place =
      .quoted openedOn := by rw [hscan]
  rw [takeLine_eq_scan_quoted hplace, hscan]

theorem afterField_last (fields : Array String) (held : String) (openedOn lineNo : Nat)
    {last : List Char} (hlast : '\n' ∉ last) :
    AfterField lineNo ⟨fields, held, .quoted openedOn⟩
      (trimStart (doubleQuotes last) ++ [quoteMark]) fields
      (joinedWith held (String.ofList (trimStart last))) where
  unbroken := by
    have hdoubled := lineFeed_not_mem_doubleQuotes hlast
    have hstart : '\n' ∉ trimStart (doubleQuotes last) := fun hm => hdoubled (mem_trimStart hm)
    simp [hstart, quoteMark]
  trimmed := by
    have hmark : isBlank quoteMark = false := by decide
    constructor
    · intro c hc
      rw [← trimStart_append_cons hmark] at hc
      exact head?_trimStart _ c hc
    · intro c hc
      obtain rfl : quoteMark = c := by simpa using hc
      exact hmark
  scanned rest hrest := by
    have hmark : rest.head? ≠ some quoteMark := by
      rcases hrest with rfl | ⟨more, rfl⟩
      · simp
      · simp [fieldSeparator, quoteMark]
    refine ⟨false, ?_⟩
    rw [entered_quoted, trimStart_doubleQuotes, List.append_assoc, List.singleton_append,
      scan_doubleQuotes _ hmark, joinedWith, joinedWith, String.append_empty]

/-- The lines after the first of a field: where it ends is settled by the last of them. -/
theorem makes_further {row : Row} (value : List Char)
    (hafter : ∀ line split start held', split.place = .quoted openedOn →
      AfterField (line + 1) split start fields held' →
      trim held' = (lineTexts value).foldl joinedWith (trim held) →
        split.Makes line (lineTexts (start ++ tail)) row)
    (hheld : EndsSolid held.toList) :
    Makes line ⟨fields, held, .quoted openedOn⟩
      (lineTexts (doubleQuotes value ++ quoteMark :: tail)) row := by
  induction value using lines_induction generalizing line held with
  | last last hlast =>
      have hend := afterField_last fields held openedOn (line + 1) hlast
      have hfirst : ∀ c ∈ (String.ofList (trimStart last)).toList.head?, isBlank c = false := by
        rw [String.toList_ofList]
        exact head?_trimStart last
      have htrimStart := trim_trimStart_append last []
      rw [List.append_nil, List.append_nil] at htrimStart
      have htrim : trim (joinedWith held (String.ofList (trimStart last))) =
          (lineTexts last).foldl joinedWith (trim held) := by
        rw [trim_joinedWith hheld hfirst, htrimStart, lineTexts_of_not_mem hlast]
        rfl
      have hmakes := hafter line _ _ _ rfl hend htrim
      rwa [List.append_assoc, List.singleton_append,
        lineTexts_trimStart (lineFeed_not_mem_doubleQuotes hlast)] at hmakes
  | line piece rest hpiece ih =>
      have htake := takeLine_further fields held openedOn (line + 1) piece
      have hsolid : EndsSolid (joinedWith held (trim (String.ofList piece))).toList :=
        endsSolid_joinedWith held (isTrimmed_trim _).2
      have hfold : (lineTexts (piece ++ '\n' :: rest)).foldl joinedWith (trim held) =
          (lineTexts rest).foldl joinedWith
            (trim (joinedWith held (trim (String.ofList piece)))) := by
        rw [trim_joinedWith hheld (isTrimmed_trim _).1, trim_eq_self_iff.2 (isTrimmed_trim _),
          lineTexts_lineFeed hpiece, List.foldl_cons]
      have hlines : lineTexts (doubleQuotes (piece ++ '\n' :: rest) ++ quoteMark :: tail) =
          trim (String.ofList (doubleQuotes piece)) ::
            lineTexts (doubleQuotes rest ++ quoteMark :: tail) := by
        rw [doubleQuotes_append, List.append_assoc]
        exact lineTexts_lineFeed (lineFeed_not_mem_doubleQuotes hpiece) _
      rw [hfold] at hafter
      rw [hlines]
      exact .opened line _ _ openedOn _ _ rfl (by rw [htake]) (htake ▸ ih hafter hsolid)

theorem AtField.makes_field {row : Row} (h : AtField (line + 1) split start fields)
    (value : String) (hquoted : '\n' ∈ value.toList → needsQuotes value = true)
    (hignores : ∀ text ∈ (lineTexts (start ++ ((writtenField value).toList ++ tail))).head?,
      split.ignores text = false)
    (hafter : ∀ line split start held, AfterField (line + 1) split start fields held →
      trim held = joinedLines value →
      (∀ text ∈ (lineTexts (start ++ tail)).head?, split.ignores text = false) →
        split.Makes line (lineTexts (start ++ tail)) row) :
    split.Makes line (lineTexts (start ++ ((writtenField value).toList ++ tail))) row := by
  by_cases hm : '\n' ∈ value.toList
  · obtain ⟨first, rest, hvalue, hfirst⟩ := List.eq_append_cons_of_mem hm
    have hopened := h.opened first
    have hheld : trim (String.ofList (trimEnd first)) = trim (String.ofList first) :=
      trim_append_trimEnd [] first
    have hjoined : (lineTexts rest).foldl joinedWith (trim (String.ofList (trimEnd first))) =
        joinedLines value := by
      rw [hheld, joinedLines, hvalue, lineTexts_lineFeed hfirst]
      rfl
    have hlines : lineTexts (start ++ ((writtenField value).toList ++ tail)) =
        trim (String.ofList (start ++ quoteMark :: doubleQuotes first)) ::
          lineTexts (doubleQuotes rest ++ quoteMark :: tail) := by
      have hline : '\n' ∉ start ++ quoteMark :: doubleQuotes first := by
        simp [h.unbroken, lineFeed_not_mem_doubleQuotes hfirst, quoteMark]
      rw [← lineTexts_lineFeed hline, writtenField_of_needsQuotes (hquoted hm), hvalue,
        doubleQuotes_append]
      simp [doubleQuotes, quoteMark]
    rw [hlines] at hignores ⊢
    refine .opened line _ _ (line + 1) _ _ (hignores _ rfl) (by rw [hopened]) ?_
    rw [hopened]
    refine makes_further rest (fun line split start held hplace hend hheld => ?_) ?_
    · exact hafter line split start held hend (hheld.trans hjoined)
        fun text _ => by simp [ignores, hplace]
    · rw [String.toList_ofList]
      exact getLast?_trimEnd first
  · have hjoined : trim value = joinedLines value := by
      rw [joinedLines, lineTexts_of_not_mem hm, String.ofList_toList]
      rfl
    rw [← List.append_assoc] at hignores ⊢
    exact hafter line split _ value (h.field hm) hjoined hignores

end Split

def writtenTail (row : Row) : List Char :=
  row.flatMap fun value => fieldSeparator :: (writtenField value).toList

theorem toList_written_cons (value : String) (row : Row) :
    (Row.written (value :: row)).toList = (writtenField value).toList ++ writtenTail row := by
  induction row generalizing value with
  | nil => rw [toList_written_singleton, writtenTail, List.flatMap_nil, List.append_nil]
  | cons next row ih =>
      rw [toList_written_cons_cons, ih]
      rfl

namespace Split

variable {line : Nat} {split : Split} {start : List Char} {fields : Array String}

theorem AtField.makes (h : AtField (line + 1) split start fields) (value : String) (row : Row)
    (hquoted : ∀ field ∈ value :: row, '\n' ∈ field.toList → needsQuotes field = true)
    (hignores : ∀ text ∈ (lineTexts (start ++ (Row.written (value :: row)).toList)).head?,
      split.ignores text = false) :
    split.Makes line (lineTexts (start ++ (Row.written (value :: row)).toList))
      (Row.unlessBlank (fields.toList ++ (value :: row).map joinedLines)) := by
  induction row generalizing value line split start fields with
  | nil =>
      rw [toList_written_cons] at hignores ⊢
      refine h.makes_field value (hquoted value List.mem_cons_self) hignores ?_
      intro line split start held hend hheld hignores
      have hstart := lineTexts_start hend.unbroken hend.trimmed
      rw [show writtenTail [] = [] from rfl, List.append_nil, hstart] at hignores ⊢
      have hmakes := hend.last (hignores _ rfl)
      rwa [Array.toList_push, hheld] at hmakes
  | cons next row ih =>
      obtain ⟨hvalue, hrow⟩ := List.forall_mem_cons.1 hquoted
      have htail : writtenTail (next :: row) =
          [fieldSeparator] ++ (Row.written (next :: row)).toList := by
        rw [toList_written_cons]
        rfl
      rw [toList_written_cons] at hignores ⊢
      refine h.makes_field value hvalue hignores ?_
      intro line split start held hend hheld hignores
      rw [htail, ← List.append_assoc] at hignores ⊢
      have hmakes := ih hend.next next hrow hignores
      rw [Array.toList_push, hheld, List.append_assoc fields.toList] at hmakes
      exact hmakes

end Split

theorem head?_lineTexts {c : Char} (hc : isBlank c = false) (rest : List Char) :
    ∀ text ∈ (lineTexts (c :: rest)).head?, text.toList.head? = some c := by
  have hfirst : ∀ line : List Char, (trim (String.ofList (c :: line))).toList.head? = some c := by
    intro line
    have hstart : trimStart (c :: line) = c :: line := trimStart_append_cons hc [] line
    have hend : trimEnd (c :: line) = c :: trimEnd line := trimEnd_append_cons hc [] line
    rw [toList_trim, String.toList_ofList, hstart, hend, List.head?_cons]
  have hbreak : c ≠ '\n' := by
    rintro rfl
    exact absurd hc (by decide)
  intro text htext
  by_cases hm : '\n' ∈ rest
  · obtain ⟨line, more, rfl, hline⟩ := List.eq_append_cons_of_mem hm
    rw [← List.cons_append, lineTexts_lineFeed (by simp [hline, hbreak.symm])] at htext
    exact Option.some.inj htext ▸ hfirst line
  · rw [lineTexts_of_not_mem (by simp [hm, hbreak.symm])] at htext
    exact Option.some.inj htext ▸ hfirst rest

theorem written_ne_empty {row : Row} (h : ∃ field ∈ row, trim field ≠ "") :
    Row.written row ≠ "" := by
  intro he
  have hblank := (line_written 1 row).1 he
  obtain ⟨field, hfield, hne⟩ := h
  rw [Row.unlessBlank_eq] at hblank
  split at hblank
  · rename_i hall
    exact hne (hall _ (List.mem_map_of_mem hfield))
  · exact List.ne_nil_of_mem hfield (List.map_eq_nil_iff.1 hblank)

/-- The lines of a written row make it up again, if each field that is not on one line is
quoted. -/
theorem Row.makes_written {row : Row} (hfilled : ∃ field ∈ row, trim field ≠ "")
    (hquoted : ∀ field ∈ row, '\n' ∈ field.toList → needsQuotes field = true) (line : Nat) :
    Split.Makes line {} (lineTexts (Row.written row).toList) (row.map joinedLines) := by
  have hblank : Row.unlessBlank (row.map joinedLines) = row.map joinedLines := by
    obtain ⟨field, hfield, hne⟩ := hfilled
    rw [Row.unlessBlank_eq, if_neg]
    exact fun hall => joinedLines_ne_empty hne (hall _ (List.mem_map_of_mem hfield))
  obtain ⟨c, rest, hwritten⟩ := List.exists_cons_of_ne_nil
    (mt String.toList_eq_nil_iff.1 (written_ne_empty hfilled))
  have hignores : ∀ text ∈ (lineTexts (Row.written row).toList).head?,
      Split.ignores {} text = false := by
    have hc : Text.isBlank c = false := (isTrimmed_written row).1 c (by rw [hwritten]; rfl)
    have hcomment := startsComment_written row
    rw [startsComment, hwritten] at hcomment
    intro text htext
    rw [hwritten] at htext
    have hhead := head?_lineTexts hc rest text htext
    have hne : text ≠ "" := by
      rintro rfl
      cases hhead
    simp only [Split.ignores, startsComment, hhead, Bool.or_eq_false_iff]
    exact ⟨by simpa using hne, hcomment⟩
  cases row with
  | nil => exact absurd rfl (written_ne_empty hfilled)
  | cons value row =>
      have hmakes := (Split.atField_empty (line + 1)).makes value row hquoted hignores
      rwa [← hblank]

theorem Split.Makes.readRowFrom {limits : Limits} {line : Nat} {split : Split}
    {texts : List String} {row : Row} (h : split.Makes line texts row) {decoded : List String}
    (htexts : decoded.map trim = texts)
    (hlengths : ∀ text ∈ decoded, contentLength (encodeUtf8 text) ≤ limits.lineLength)
    {joined : Nat} (hcount : joined + texts.length ≤ max 1 limits.linesPerRow)
    (hstart : ∀ openedOn, split.place = .quoted openedOn → joined ≠ 0) (fingerprint : Fingerprint)
    (rest : List LineRead) :
    readRowFrom limits split joined line fingerprint
        (decoded.map (fun text => .line (encodeUtf8 text)) ++ rest) =
      ⟨.ok true, row, ⟨rest, line + texts.length, texts.foldl Fingerprint.add fingerprint⟩⟩ := by
  have hroom : ∀ openedOn, split.place = .quoted openedOn → 0 < texts.length →
      joined < limits.linesPerRow := by
    intro openedOn hplace hpos
    have := hstart openedOn hplace
    omega
  induction h generalizing decoded joined fingerprint with
  | ignored line split text h =>
      obtain ⟨first, rfl, rfl⟩ := List.map_eq_singleton_iff.1 htexts
      have hlength := hlengths first List.mem_cons_self
      rw [List.map_singleton, List.singleton_append, readRowFrom_line hlength
        (decodeUtf8_encodeUtf8 first) fun openedOn hplace => hroom openedOn hplace Nat.one_pos]
      simp only [h, if_true]
      rfl
  | closed line split text fieldStart h hplace =>
      obtain ⟨first, rfl, rfl⟩ := List.map_eq_singleton_iff.1 htexts
      have hlength := hlengths first List.mem_cons_self
      rw [List.map_singleton, List.singleton_append, readRowFrom_line hlength
        (decodeUtf8_encodeUtf8 first) fun openedOn hplace => hroom openedOn hplace Nat.one_pos]
      simp only [h, Bool.false_eq_true, if_false, hplace]
      rfl
  | opened line split text openedOn texts row h hplace hrest ih =>
      obtain ⟨first, later, rfl, rfl, hlater⟩ := List.map_eq_cons_iff.1 htexts
      obtain ⟨hlength, hlengths⟩ := List.forall_mem_cons.1 hlengths
      rw [List.length_cons] at hcount
      have hjoined : joined + 1 + texts.length ≤ max 1 limits.linesPerRow := by omega
      have hnext := ih hlater hlengths hjoined (fun _ _ => Nat.succ_ne_zero joined)
        (fingerprint.add (trim first))
      rw [List.map_cons, List.cons_append, readRowFrom_line hlength
        (decodeUtf8_encodeUtf8 first) fun openedOn hplace =>
          hroom openedOn hplace (Nat.succ_pos _)]
      simp only [h, Bool.false_eq_true, if_false, hplace]
      rw [hnext (by intros; omega), List.length_cons, List.foldl_cons, Nat.add_assoc,
        Nat.add_comm 1]

theorem exists_written_append (before : Row) :
    ∃ start, ∀ (value : String) (after : Row), (Row.written (before ++ value :: after)).toList =
      start ++ ((writtenField value).toList ++ writtenTail after) := by
  cases before with
  | nil => exact ⟨[], toList_written_cons⟩
  | cons first before =>
      refine ⟨(writtenField first).toList ++ (writtenTail before ++ [fieldSeparator]), ?_⟩
      intro value after
      rw [List.cons_append, toList_written_cons, writtenTail, List.flatMap_append,
        List.flatMap_cons, ← writtenTail, ← writtenTail]
      simp

theorem needsQuotes_firstLine {value : String} {first rest : List Char}
    (hvalue : value.toList = first ++ '\n' :: rest) (hplain : needsQuotes value = false) :
    needsQuotes (String.ofList (trimEnd first)) = false ∧
      trim (String.ofList (trimEnd first)) ≠ "" := by
  simp only [needsQuotes, Bool.or_eq_false_iff] at hplain
  obtain ⟨hmarks, htrim⟩ := hplain
  have htrimmed : IsTrimmed value.toList := trim_eq_self_iff.1 (by simpa using htrim)
  -- a value that begins with its line feed is not trimmed
  obtain ⟨c, more, rfl⟩ : ∃ c more, first = c :: more := by
    apply List.exists_cons_of_ne_nil
    rintro rfl
    exact absurd (htrimmed.1 '\n' (by simp [hvalue])) (by decide)
  have hc : isBlank c = false := htrimmed.1 c (by simp [hvalue])
  have hend : trimEnd (c :: more) = c :: trimEnd more := trimEnd_append_cons hc [] more
  have hfirst : trim (String.ofList (trimEnd (c :: more))) = String.ofList (trimEnd (c :: more)) := by
    rw [trim_eq_self_iff, String.toList_ofList]
    exact ⟨by simp [hend, hc], getLast?_trimEnd _⟩
  have hmem : ∀ d ∈ trimEnd (c :: more), d ∈ value.toList := by
    intro d hd
    rw [hvalue]
    exact List.mem_append_left _ (mem_trimEnd hd)
  rw [hfirst]
  refine ⟨?_, fun he => by simp [hend] at he⟩
  rw [List.any_eq_false] at hmarks
  simp only [needsQuotes, hfirst, bne_self_eq_false, Bool.or_false, List.any_eq_false,
    String.toList_ofList]
  exact fun d hd => hmarks d (hmem d hd)

/-- A value that is not quoted ends its row at its first line feed. -/
theorem Row.makes_first {row : Row}
    (h : ∃ field ∈ row, '\n' ∈ field.toList ∧ needsQuotes field = false) (line : Nat) :
    ∃ texts later made, lineTexts (Row.written row).toList = texts ++ later ∧ later ≠ [] ∧
      Split.Makes line {} texts made := by
  let breaks (field : String) : Bool := '\n' ∈ field.toList && !needsQuotes field
  obtain ⟨field, hfield, hbreaks⟩ := h
  obtain ⟨value, hfind⟩ := Option.isSome_iff_exists.1
    (List.find?_isSome (p := breaks).2 ⟨field, hfield, by simpa [breaks] using hbreaks⟩)
  obtain ⟨hvalue, before, after, rfl, hbefore⟩ := List.find?_eq_some_iff_append.1 hfind
  have hvalue : '\n' ∈ value.toList ∧ needsQuotes value = false := by simpa [breaks] using hvalue
  obtain ⟨first, rest, htext, hfirst⟩ := List.eq_append_cons_of_mem hvalue.1
  obtain ⟨hplain, hfilled⟩ := needsQuotes_firstLine htext hvalue.2
  obtain ⟨start, hwritten⟩ := exists_written_append before
  have hquoted : ∀ other ∈ before ++ [String.ofList (trimEnd first)], '\n' ∈ other.toList →
      needsQuotes other = true := by
    intro other hother hline
    rcases List.mem_append.1 hother with hother | hother
    · simpa [breaks, hline] using hbefore other hother
    · obtain rfl := List.mem_singleton.1 hother
      rw [String.toList_ofList] at hline
      exact absurd (mem_trimEnd hline) hfirst
  have hmakes := Row.makes_written ⟨_, by simp, hfilled⟩ hquoted line
  refine ⟨_, lineTexts (rest ++ writtenTail after), _, ?_, lineTexts_ne_nil _, hmakes⟩
  rw [hwritten, hwritten, writtenField_of_plain hvalue.2, writtenField_of_plain hplain, htext,
    String.toList_ofList, show writtenTail [] = [] from rfl, List.append_nil,
    lineTexts_trimEnd hfirst, ← lineTexts_append]
  simp

theorem exists_rowReads_cons (limits : Limits) (position : Position) :
    ∃ later, rowReads limits position = readLogicalRow limits position :: later := by
  cases he : (readLogicalRow limits position).isEnd with
  | true => exact ⟨[], rowReads_of_isEnd he⟩
  | false => exact ⟨_, rowReads_of_not_isEnd he⟩

theorem reads_lines {limits : Limits} {text : String}
    (hlines : ∀ line ∈ wholeLines (encodeUtf8 (text.push '\n')), limits.Admits line) :
    ∃ decoded : List String, (Feed.ofText (text.push '\n')).reads limits.readLength =
        decoded.map (fun line => .line (encodeUtf8 line)) ∧
      decoded.map trim = lineTexts text.toList ∧
      wholeLines (encodeUtf8 (text.push '\n')) = decoded.map encodeUtf8 := by
  have hwhole := wholeLines_terminated text.toList
  rw [String.ofList_toList] at hwhole
  refine ⟨(text.toList.splitOn '\n').map fun line => (String.ofList line).push '\n', ?_, ?_, ?_⟩
  · rw [Feed.ofText, Feed.reads_eq_wholeLines fun line hl => (hlines line hl).length_le, hwhole,
      List.map_map, List.map_map]
    rfl
  · rw [List.map_map]
    exact List.map_congr_left fun line _ => trim_push_blank _ (by decide)
  · rw [hwhole, List.map_map]
    rfl

theorem readLogicalRow_lines {limits : Limits} {text : String}
    (hlines : ∀ line ∈ wholeLines (encodeUtf8 (text.push '\n')), limits.Admits line)
    (hcount : (wholeLines (encodeUtf8 (text.push '\n'))).length ≤ max 1 limits.linesPerRow)
    {texts later : List String} {row : Row} (htexts : lineTexts text.toList = texts ++ later)
    (hmakes : Split.Makes 0 {} texts row) :
    ∃ rest : List LineRead, rest.length = later.length ∧
      readLogicalRow limits (.ofFeed limits (.ofText (text.push '\n'))) =
        ⟨.ok true, row, ⟨rest, texts.length, texts.foldl Fingerprint.add {}⟩⟩ := by
  obtain ⟨decoded, hreads, hshown, hwhole⟩ := reads_lines hlines
  rw [hwhole, List.length_map, ← List.length_map trim, hshown, htexts, List.length_append]
    at hcount
  obtain ⟨taken, others, rfl, htaken, hothers⟩ := List.map_eq_append_iff.1 (hshown.trans htexts)
  have hlengths : ∀ line ∈ taken, contentLength (encodeUtf8 line) ≤ limits.lineLength := by
    intro line hl
    have hmem : encodeUtf8 line ∈ wholeLines (encodeUtf8 (text.push '\n')) :=
      hwhole ▸ List.mem_map_of_mem (List.mem_append_left others hl)
    exact (hlines _ hmem).1
  have hroom : 0 + texts.length ≤ max 1 limits.linesPerRow := by omega
  have hrow := hmakes.readRowFrom htaken hlengths hroom (fun _ h => by cases h) {}
    (others.map fun line => .line (encodeUtf8 line))
  rw [Nat.zero_add, ← List.map_append, ← hreads] at hrow
  exact ⟨_, by rw [List.length_map, ← hothers, List.length_map], hrow⟩

/-- Whether a written row is read as one row again is settled by its fields that have line feeds:
it is if each of them is quoted for something else, and then every field is read with its lines
joined. A line feed in any other field ends the row, and what comes after it is read as another. -/
theorem rowReads_written_lines (limits : Limits) (row : Row)
    (hfilled : ∃ field ∈ row, trim field ≠ "")
    (hlines : ∀ line ∈ wholeLines (encodeUtf8 ((Row.written row).push '\n')), limits.Admits line)
    (hcount : (wholeLines (encodeUtf8 ((Row.written row).push '\n'))).length ≤
      max 1 limits.linesPerRow) :
    let text := (Row.written row).push '\n'
    let lines := (wholeLines (encodeUtf8 text)).length
    let reads := rowReads limits (.ofFeed limits (.ofText text))
    ((∀ field ∈ row, '\n' ∈ field.toList → needsQuotes field = true) →
      reads.map RowRead.shown =
        [(.ok true, lines, row.map joinedLines), (.ok false, lines, [])]) ∧
    ((∃ field ∈ row, '\n' ∈ field.toList ∧ needsQuotes field = false) →
      ∃ first second later, reads = first :: second :: later ∧ first.outcome = .ok true ∧
        second.outcome ≠ .ok false) := by
  intro text lines reads
  have hread : ∀ {position : Position} {made : Row},
      readLogicalRow limits (.ofFeed limits (.ofText text)) = ⟨.ok true, made, position⟩ →
        reads = ⟨.ok true, made, position⟩ :: rowReads limits position := by
    intro position made hrow
    have hone : (readLogicalRow limits (.ofFeed limits (.ofText text))).isEnd = false := by
      rw [hrow]
      rfl
    rw [show reads = _ from rowReads_of_not_isEnd hone, hrow]
  constructor
  · intro hquoted
    obtain ⟨rest, hrest, hrow⟩ := readLogicalRow_lines hlines hcount (List.append_nil _).symm
      (Row.makes_written hfilled hquoted 0)
    obtain rfl := List.eq_nil_of_length_eq_zero hrest
    have hall : (lineTexts (Row.written row).toList).length = lines := by
      obtain ⟨decoded, -, hshown, hwhole⟩ := reads_lines hlines
      rw [← hshown, List.length_map, ← List.length_map encodeUtf8, ← hwhole]
    rw [hread hrow, rowReads_end, hall]
    rfl
  · intro hbreaks
    obtain ⟨texts, later, made, htexts, hlater, hmakes⟩ := Row.makes_first hbreaks 0
    obtain ⟨rest, hrest, hrow⟩ := readLogicalRow_lines hlines hcount htexts hmakes
    obtain ⟨more, hmore⟩ :=
      exists_rowReads_cons limits ⟨rest, texts.length, texts.foldl Fingerprint.add {}⟩
    refine ⟨_, _, more, by rw [hread hrow, hmore], rfl, fun hend => ?_⟩
    obtain rfl : rest = [] := (readLogicalRow_end hend).1
    exact hlater (List.eq_nil_of_length_eq_zero hrest.symm)

theorem rowReads_written_lines_quoted :
    let limits : Limits := ⟨11, 4⟩
    let row : Row := ["a, \n  \n\"b", "c", "#d;\n"]
    let text := (Row.written row).push '\n'
    (∃ field ∈ row, trim field ≠ "") ∧
      (∀ line ∈ wholeLines (encodeUtf8 text), limits.Admits line) ∧
      (wholeLines (encodeUtf8 text)).length ≤ max 1 limits.linesPerRow ∧
      (rowReads limits (.ofFeed limits (.ofText text))).map RowRead.shown =
        [(.ok true, 4, ["a,;\"b", "c", "#d;"]), (.ok false, 4, [])] := by
  intro limits row text
  have hfilled : ∃ field ∈ row, trim field ≠ "" := by decide +kernel
  have hlines : ∀ line ∈ wholeLines (encodeUtf8 text), limits.Admits line := by
    simp only [Limits.Admits]
    decide +kernel
  have hcount : (wholeLines (encodeUtf8 text)).length ≤ max 1 limits.linesPerRow := by
    decide +kernel
  refine ⟨hfilled, hlines, hcount, ?_⟩
  have hread := (rowReads_written_lines limits row hfilled hlines hcount).1 (by decide +kernel)
  have hnumber : (wholeLines (encodeUtf8 text)).length = 4 := by decide +kernel
  have hfields : row.map joinedLines = ["a,;\"b", "c", "#d;"] := by decide +kernel
  rw [hread, hnumber, hfields]

theorem rowReads_written_lines_broken :
    let limits : Limits := {}
    let row : Row := ["a\nb"]
    let text := (Row.written row).push '\n'
    (∃ field ∈ row, trim field ≠ "") ∧
      (∀ line ∈ wholeLines (encodeUtf8 text), limits.Admits line) ∧
      (wholeLines (encodeUtf8 text)).length ≤ max 1 limits.linesPerRow ∧
      (rowReads limits (.ofFeed limits (.ofText text))).map RowRead.shown =
        [(.ok true, 1, ["a"]), (.ok true, 2, ["b"]), (.ok false, 2, [])] := by
  intro limits row text
  refine ⟨by decide +kernel, ?_, by decide +kernel, ?_⟩
  · simp only [Limits.Admits]
    decide +kernel
  · have htext : text = writtenRows [["a"], ["b"]] := by decide +kernel
    rw [htext]
    refine shown_rowReads_writtenRows limits [["a"], ["b"]] 0 {} (by decide) ?_
    simp only [Limits.Allow]
    decide +kernel

end DefinitionFiles
