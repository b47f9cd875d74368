import DefinitionFiles.Proofs.Lists
import DefinitionFiles.Proofs.Text.Trim
import DefinitionFiles.Row.Split
import DefinitionFiles.Row.Written

namespace DefinitionFiles

namespace Split

variable {lineNo openedOn : Nat} {c : Char} {rest : List Char} {fields : Array String}
  {text : String} {fieldStart : Bool}

theorem push_append_ofList (text : String) (c : Char) (chars : List Char) :
    text.push c ++ String.ofList chars = text ++ String.ofList (c :: chars) := by
  apply String.ext
  simp

theorem scan_quoted_mark_mark :
    scan lineNo (quoteMark :: quoteMark :: rest) ⟨fields, text, .quoted openedOn⟩ =
      scan lineNo rest ⟨fields, text.push quoteMark, .quoted openedOn⟩ := by
  simp [scan, push]

theorem scan_quoted_mark (h : rest.head? ≠ some quoteMark) :
    scan lineNo (quoteMark :: rest) ⟨fields, text, .quoted openedOn⟩ =
      scan lineNo rest ⟨fields, text, .outside false⟩ := by
  cases rest with
  | nil => simp [scan, outside]
  | cons d rest =>
      have hd : d ≠ quoteMark := by simpa using h
      simp [scan, outside, hd]

theorem scan_quoted (h : c ≠ quoteMark) :
    scan lineNo (c :: rest) ⟨fields, text, .quoted openedOn⟩ =
      scan lineNo rest ⟨fields, text.push c, .quoted openedOn⟩ := by
  cases rest <;> simp [scan, push, h]

theorem scan_separator :
    scan lineNo (fieldSeparator :: rest) ⟨fields, text, .outside fieldStart⟩ =
      scan lineNo rest ⟨fields.push (Text.trim text), "", .outside true⟩ := by
  cases rest <;> simp [scan, finishField, outside]

theorem scan_mark :
    scan lineNo (quoteMark :: rest) ⟨fields, text, .outside true⟩ =
      scan lineNo rest ⟨fields, "", .quoted lineNo⟩ := by
  have h : quoteMark ≠ fieldSeparator := by decide
  cases rest <;> simp [scan, h]

theorem scan_outside (h : c ≠ fieldSeparator) (hq : c ≠ quoteMark ∨ fieldStart = false) :
    scan lineNo (c :: rest) ⟨fields, text, .outside fieldStart⟩ =
      scan lineNo rest ⟨fields, text.push c, .outside (fieldStart && Text.isBlank c)⟩ := by
  have hn : ¬(c = quoteMark ∧ fieldStart = true) := by
    rintro ⟨hc, hs⟩
    simp [hc, hs] at hq
  cases rest <;> simp [scan, push, outside, h, hn]

theorem scan_nil (split : Split) : scan lineNo [] split = split.endLine := by
  simp [scan]

theorem scan_induction (lineNo : Nat) {motive : List Char → Split → Prop}
    (done : ∀ split, motive [] split)
    (doubled : ∀ rest fields text openedOn,
      motive rest ⟨fields, text.push quoteMark, .quoted openedOn⟩ →
        motive (quoteMark :: quoteMark :: rest) ⟨fields, text, .quoted openedOn⟩)
    (closing : ∀ rest fields text openedOn, rest.head? ≠ some quoteMark →
      motive rest ⟨fields, text, .outside false⟩ →
        motive (quoteMark :: rest) ⟨fields, text, .quoted openedOn⟩)
    (inside : ∀ c rest fields text openedOn, c ≠ quoteMark →
      motive rest ⟨fields, text.push c, .quoted openedOn⟩ →
        motive (c :: rest) ⟨fields, text, .quoted openedOn⟩)
    (separator : ∀ rest fields text fieldStart,
      motive rest ⟨fields.push (Text.trim text), "", .outside true⟩ →
        motive (fieldSeparator :: rest) ⟨fields, text, .outside fieldStart⟩)
    (opening : ∀ rest fields text, motive rest ⟨fields, "", .quoted lineNo⟩ →
      motive (quoteMark :: rest) ⟨fields, text, .outside true⟩)
    (plain : ∀ c rest fields text fieldStart, c ≠ fieldSeparator →
      c ≠ quoteMark ∨ fieldStart = false →
        motive rest ⟨fields, text.push c, .outside (fieldStart && Text.isBlank c)⟩ →
          motive (c :: rest) ⟨fields, text, .outside fieldStart⟩)
    (line : List Char) (split : Split) : motive line split := by
  induction line, split using scan.induct lineNo with
  | case1 split => exact done split
  | case2 split openedOn hp =>
      obtain ⟨fields, text, place⟩ := split
      cases hp
      exact closing [] fields text openedOn (by simp) (done _)
  | case3 split openedOn hp rest ih =>
      obtain ⟨fields, text, place⟩ := split
      cases hp
      exact doubled rest fields text openedOn ih
  | case4 split openedOn hp d rest hd ih =>
      obtain ⟨fields, text, place⟩ := split
      cases hp
      exact closing (d :: rest) fields text openedOn (by simpa using hd) ih
  | case5 c rest split openedOn hp hc ih =>
      obtain ⟨fields, text, place⟩ := split
      cases hp
      exact inside c rest fields text openedOn hc ih
  | case6 rest split fieldStart hp ih =>
      obtain ⟨fields, text, place⟩ := split
      cases hp
      exact separator rest fields text fieldStart ih
  | case7 c rest split fieldStart hp hs hc ih =>
      obtain ⟨fields, text, place⟩ := split
      cases hp
      obtain ⟨rfl, rfl⟩ := hc
      exact opening rest fields text ih
  | case8 c rest split fieldStart hp hs hc ih =>
      obtain ⟨fields, text, place⟩ := split
      cases hp
      refine plain c rest fields text fieldStart hs ?_ ih
      by_cases hq : c = quoteMark
      · exact .inr (by simpa using fun hf => hc ⟨hq, hf⟩)
      · exact .inl hq

/-- A row whose quotes were opened on lines of other numbers. -/
def relabel (f : Nat → Nat) (split : Split) : Split :=
  { split with
    place :=
      match split.place with
      | .quoted openedOn => .quoted (f openedOn)
      | .outside fieldStart => .outside fieldStart }

theorem relabel_of_outside {split : Split} (h : split.place = .outside fieldStart)
    (f : Nat → Nat) : split.relabel f = split := by
  obtain ⟨fields, text, place⟩ := split
  cases h
  rfl

theorem relabel_scan (f : Nat → Nat) (lineNo : Nat) (line : List Char) (split : Split) :
    (scan lineNo line split).relabel f = scan (f lineNo) line (split.relabel f) := by
  induction line, split using scan_induction lineNo with
  | done split =>
      obtain ⟨fields, text, place⟩ := split
      rw [scan_nil, scan_nil]
      cases place <;> rfl
  | doubled rest fields text openedOn ih =>
      rw [scan_quoted_mark_mark, ih]
      exact scan_quoted_mark_mark.symm
  | closing rest fields text openedOn hrest ih =>
      rw [scan_quoted_mark hrest, ih]
      exact (scan_quoted_mark hrest).symm
  | inside c rest fields text openedOn hc ih =>
      rw [scan_quoted hc, ih]
      exact (scan_quoted hc).symm
  | separator rest fields text fieldStart ih =>
      rw [scan_separator, ih]
      exact scan_separator.symm
  | opening rest fields text ih =>
      rw [scan_mark, ih]
      exact scan_mark.symm
  | plain c rest fields text fieldStart hs hq ih =>
      rw [scan_outside hs hq, ih]
      exact (scan_outside hs hq).symm

theorem scan_plain (lineNo : Nat) (piece rest : List Char)
    (h : ∀ c ∈ piece, c ≠ fieldSeparator ∧ c ≠ quoteMark) (fields : Array String) (text : String)
    (fieldStart : Bool) :
    ∃ fieldStart', scan lineNo (piece ++ rest) ⟨fields, text, .outside fieldStart⟩ =
      scan lineNo rest ⟨fields, text ++ String.ofList piece, .outside fieldStart'⟩ := by
  induction piece generalizing text fieldStart with
  | nil => exact ⟨fieldStart, by simp⟩
  | cons c piece ih =>
      have hc := h c List.mem_cons_self
      obtain ⟨fieldStart', ih⟩ := ih (fun d hd => h d (List.mem_cons_of_mem c hd)) (text.push c)
        (fieldStart && Text.isBlank c)
      refine ⟨fieldStart', ?_⟩
      rw [List.cons_append, scan_outside hc.1 (.inl hc.2), ih, push_append_ofList]

theorem scan_doubleQuotes (value : List Char) (hrest : rest.head? ≠ some quoteMark)
    (text : String) :
    scan lineNo (doubleQuotes value ++ quoteMark :: rest) ⟨fields, text, .quoted openedOn⟩ =
      scan lineNo rest ⟨fields, text ++ String.ofList value, .outside false⟩ := by
  induction value generalizing text with
  | nil =>
      rw [doubleQuotes, List.flatMap_nil, List.nil_append, scan_quoted_mark hrest]
      simp
  | cons c value ih =>
      rw [← push_append_ofList, ← ih]
      by_cases hc : c = quoteMark
      · simp only [doubleQuotes, List.flatMap_cons, hc, if_true, List.cons_append,
          List.nil_append, scan_quoted_mark_mark]
      · simp only [doubleQuotes, List.flatMap_cons, hc, if_false, List.cons_append,
          List.nil_append, scan_quoted hc]

theorem plain_of_needsQuotes {value : String} (h : needsQuotes value = false) :
    ∀ c ∈ value.toList, c ≠ fieldSeparator ∧ c ≠ quoteMark := by
  intro c hc
  simp only [needsQuotes, Bool.or_eq_false_iff, List.any_eq_false] at h
  have hm := h.1 c hc
  constructor <;> rintro rfl <;> simp at hm

/-- A written field reads back, whatever may follow it. -/
theorem scan_writtenField (lineNo : Nat) (value : String) (fields : Array String)
    (hrest : rest = [] ∨ ∃ more, rest = fieldSeparator :: more) :
    ∃ fieldStart, scan lineNo ((writtenField value).toList ++ rest) ⟨fields, "", .outside true⟩ =
      scan lineNo rest ⟨fields, value, .outside fieldStart⟩ := by
  cases hn : needsQuotes value with
  | false =>
      obtain ⟨fieldStart, h⟩ := scan_plain lineNo value.toList rest (plain_of_needsQuotes hn)
        fields "" true
      exact ⟨fieldStart, by simpa [writtenField, hn] using h⟩
  | true =>
      have hq : rest.head? ≠ some quoteMark := by
        rcases hrest with rfl | ⟨more, rfl⟩
        · simp
        · simp [fieldSeparator, quoteMark]
      refine ⟨false, ?_⟩
      simp only [writtenField, hn, if_true, String.toList_ofList, List.cons_append,
        List.append_assoc, List.nil_append, scan_mark, scan_doubleQuotes value.toList hq,
        String.ofList_toList, String.empty_append]

theorem scan_written (lineNo : Nat) (value : String) (row : Row) (fields : Array String) :
    ∃ fieldStart, scan lineNo (Row.written (value :: row)).toList ⟨fields, "", .outside true⟩ =
      ⟨fields ++ ((value :: row).map Text.trim).toArray, "", .outside fieldStart⟩ := by
  induction row generalizing value fields with
  | nil =>
      obtain ⟨fieldStart, h⟩ := scan_writtenField lineNo value fields (.inl rfl)
      refine ⟨fieldStart, ?_⟩
      rw [List.append_nil] at h
      simp [Row.written, h, scan, endLine, finishField]
  | cons next row ih =>
      obtain ⟨fieldStart, h⟩ := scan_writtenField lineNo value fields
        (.inr ⟨(Row.written (next :: row)).toList, rfl⟩)
      obtain ⟨fieldStart', ih⟩ := ih next (fields.push (Text.trim value))
      refine ⟨fieldStart', ?_⟩
      have hw : (Row.written (value :: next :: row)).toList =
          (writtenField value).toList ++ fieldSeparator :: (Row.written (next :: row)).toList := by
        simp [Row.written]
      rw [hw, h, scan_separator, ih]
      simp

theorem cut_nil (split : Split) : cut [] split = split.finishField := by
  simp [cut]

theorem cut_separator (rest : List Char) (split : Split) :
    cut (fieldSeparator :: rest) split = cut rest split.finishField := by
  simp [cut, List.splitOn_cons_eq_if_modifyHead]

theorem cut_cons (h : c ≠ fieldSeparator) (rest : List Char) (split : Split) :
    cut (c :: rest) split = cut rest (split.push c) := by
  obtain ⟨piece, pieces, hs⟩ := List.exists_cons_of_ne_nil (List.splitOn_ne_nil fieldSeparator rest)
  simp [cut, List.splitOn_cons_eq_if_modifyHead, h, hs, push, push_append_ofList]

theorem relabel_cut (f : Nat → Nat) (line : List Char) (split : Split) :
    (cut line split).relabel f = cut line (split.relabel f) := by
  induction line generalizing split with
  | nil => simp only [cut_nil, relabel, finishField]
  | cons c line ih =>
      by_cases hs : c = fieldSeparator
      · subst hs
        rw [cut_separator, cut_separator, ih]
        rfl
      · rw [cut_cons hs, cut_cons hs, ih]
        rfl

theorem relabel_line (f : Nat → Nat) (lineNo : Nat) (line : List Char) (split : Split) :
    (Split.line lineNo line split).relabel f = Split.line (f lineNo) line (split.relabel f) := by
  obtain ⟨fields, text, place⟩ := split
  cases place with
  | quoted openedOn => exact relabel_scan f lineNo line _
  | outside fieldStart =>
      by_cases hq : quoteMark ∈ line
      · simpa [Split.line, hq, relabel] using relabel_scan f lineNo line
          ⟨fields, text, .outside fieldStart⟩
      · simpa [Split.line, hq, relabel] using relabel_cut f line ⟨fields, text, .outside fieldStart⟩

theorem relabel_joinLine (f : Nat → Nat) (split : Split) :
    split.joinLine.relabel f = (split.relabel f).joinLine := by
  have htext : (split.relabel f).text = split.text := rfl
  simp only [joinLine, htext]
  split <;> rfl

/-- On a line without quote marks, cutting at the separators and scanning finish the
same fields. -/
theorem cut_eq_scan (lineNo : Nat) (line : List Char) (h : quoteMark ∉ line) (fields : Array String)
    (text : String) (fieldStart fieldStart' : Bool) :
    ∃ fields' fieldStart'', cut line ⟨fields, text, .outside fieldStart⟩ =
        ⟨fields', "", .outside fieldStart⟩ ∧
      scan lineNo line ⟨fields, text, .outside fieldStart'⟩ =
        ⟨fields', "", .outside fieldStart''⟩ := by
  induction line generalizing fields text fieldStart' with
  | nil => exact ⟨fields.push (Text.trim text), fieldStart', cut_nil _, rfl⟩
  | cons c line ih =>
      have hc : c ≠ quoteMark := fun he => h (by simp [he])
      have hl : quoteMark ∉ line := fun hm => h (List.mem_cons_of_mem c hm)
      by_cases hs : c = fieldSeparator
      · subst hs
        rw [cut_separator, scan_separator]
        exact ih hl (fields.push (Text.trim text)) "" true
      · rw [cut_cons hs, scan_outside hs (.inl hc)]
        exact ih hl fields (text.push c) (fieldStart' && Text.isBlank c)

/-- Whichever way a line is split that starts outside quotes, the fields are those that
scanning it finds. -/
theorem line_eq_scan {line : List Char} {fields' : Array String} {fieldStart' : Bool}
    (h : scan lineNo line ⟨fields, text, .outside fieldStart⟩ =
      ⟨fields', "", .outside fieldStart'⟩) :
    ∃ fieldStart'', Split.line lineNo line ⟨fields, text, .outside fieldStart⟩ =
      ⟨fields', "", .outside fieldStart''⟩ := by
  by_cases hq : quoteMark ∈ line
  · exact ⟨fieldStart', by simpa [Split.line, hq] using h⟩
  · obtain ⟨fields'', _, hcut, hscan⟩ :=
      cut_eq_scan lineNo line hq fields text fieldStart fieldStart
    rw [h] at hscan
    cases hscan
    exact ⟨fieldStart, by simpa [Split.line, hq] using hcut⟩

end Split

end DefinitionFiles
