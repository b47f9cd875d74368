import DefinitionFiles.Proofs.Row.Segments

namespace DefinitionFiles

open Text

namespace Split

variable {lineNo openedOn : Nat} {fields : Array String} {rest tail : List Char}

theorem scan_paired {body : List Char} (h : Paired body) (rest : List Char) (text : String) :
    scan lineNo (body ++ rest) ⟨fields, text, .quoted openedOn⟩ =
      scan lineNo rest ⟨fields, text ++ String.ofList (halve body), .quoted openedOn⟩ := by
  induction h generalizing text with
  | nil => simp [halve]
  | char c body hc h ih =>
      rw [List.cons_append, scan_quoted hc, ih, halve_char hc, push_append_ofList]
  | pair body h ih =>
      rw [List.cons_append, List.cons_append, scan_quoted_mark_mark, ih, halve_pair,
        push_append_ofList]

theorem scan_all_paired {body : List Char} (h : Paired body) (lineNo : Nat)
    (fields : Array String) (text : String) (openedOn : Nat) :
    scan lineNo body ⟨fields, text, .quoted openedOn⟩ =
      ⟨fields, text ++ String.ofList (halve body), .quoted openedOn⟩ := by
  rw [← List.append_nil body, scan_paired h, scan_nil, List.append_nil]
  rfl

theorem scan_literal {after : List Char} (h : fieldSeparator ∉ after) (rest : List Char)
    (text : String) :
    scan lineNo (after ++ rest) ⟨fields, text, .outside false⟩ =
      scan lineNo rest ⟨fields, text ++ String.ofList after, .outside false⟩ := by
  induction after generalizing text with
  | nil => simp
  | cons c after ih =>
      have hc : c ≠ fieldSeparator := fun he => h (by simp [he])
      rw [List.cons_append, scan_outside hc (.inr rfl), Bool.false_and,
        ih (fun hm => h (List.mem_cons_of_mem c hm)), push_append_ofList]

theorem isBlank_mark_separator {c : Char} (h : isBlank c = true) :
    c ≠ fieldSeparator ∧ c ≠ quoteMark := by
  constructor <;> rintro rfl <;> exact absurd h (by decide)

theorem scan_blanks {before : List Char} (h : ∀ c ∈ before, isBlank c = true) (rest : List Char)
    (text : String) :
    scan lineNo (before ++ rest) ⟨fields, text, .outside true⟩ =
      scan lineNo rest ⟨fields, text ++ String.ofList before, .outside true⟩ := by
  induction before generalizing text with
  | nil => simp
  | cons c before ih =>
      obtain ⟨hc, hbefore⟩ := List.forall_mem_cons.1 h
      obtain ⟨hseparator, hmark⟩ := isBlank_mark_separator hc
      rw [List.cons_append, scan_outside hseparator (.inl hmark), hc, Bool.true_and,
        ih hbefore, push_append_ofList]

theorem scan_unquoted (lineNo : Nat) (fields : Array String) {text : List Char}
    (hseparator : fieldSeparator ∉ text)
    (hfirst : (text.dropWhile isBlank).head? ≠ some quoteMark) (rest : List Char) (held : String) :
    ∃ fieldStart, scan lineNo (text ++ rest) ⟨fields, held, .outside true⟩ =
      scan lineNo rest ⟨fields, held ++ String.ofList text, .outside fieldStart⟩ := by
  induction text generalizing held with
  | nil => exact ⟨true, by simp⟩
  | cons c text ih =>
      have hc : c ≠ fieldSeparator := fun he => hseparator (by simp [he])
      have hrest : fieldSeparator ∉ text := fun hm => hseparator (List.mem_cons_of_mem c hm)
      cases hblank : isBlank c with
      | true =>
          rw [List.dropWhile_cons_of_pos hblank] at hfirst
          obtain ⟨fieldStart, hscan⟩ := ih hrest hfirst (held.push c)
          refine ⟨fieldStart, ?_⟩
          rw [List.cons_append, scan_outside hc (.inl (isBlank_mark_separator hblank).2), hblank,
            Bool.true_and, hscan, push_append_ofList]
      | false =>
          have hmark : c ≠ quoteMark := by
            rintro rfl
            simp [hblank] at hfirst
          refine ⟨false, ?_⟩
          rw [List.cons_append, scan_outside hc (.inl hmark), hblank, Bool.true_and,
            scan_literal hrest, push_append_ofList]

theorem scan_segment (lineNo : Nat) (fields : Array String) {segment : Segment}
    (h : segment.Sound) (hclosed : segment.isOpened = false) (htail : AtSeparator tail) :
    ∃ fieldStart, scan lineNo (segment.text ++ tail) ⟨fields, "", .outside true⟩ =
      scan lineNo tail ⟨fields, String.ofList segment.value, .outside fieldStart⟩ := by
  cases h with
  | plain text hseparator hfirst =>
      obtain ⟨fieldStart, hscan⟩ := scan_unquoted lineNo fields hseparator hfirst tail ""
      exact ⟨fieldStart, by rw [String.empty_append] at hscan; exact hscan⟩
  | quoted before body after hbefore hbody hafter hseparator =>
      refine ⟨false, ?_⟩
      rw [Segment.text_quoted_append, scan_blanks hbefore, scan_mark, scan_paired hbody,
        scan_quoted_mark (head?_append_separator hafter htail), scan_literal hseparator,
        String.empty_append, Segment.value, String.ofList_append]
  | opened before body hbefore hbody => cases hclosed

theorem scan_opened {before body : List Char} (hbefore : ∀ c ∈ before, isBlank c = true)
    (hbody : Paired body) :
    scan lineNo (Segment.opened before body).text ⟨fields, "", .outside true⟩ =
      ⟨fields, String.ofList (halve body), .quoted lineNo⟩ := by
  rw [Segment.text, scan_blanks hbefore, scan_mark, scan_all_paired hbody, String.empty_append]

/-- A line is scanned segment by segment. Quotes are open at its end if a segment is opened, and
otherwise each segment has given its field. -/
theorem scan_cut {line : List Char} {segments : List Segment} (h : Cut line segments)
    (lineNo : Nat) (fields : Array String) :
    if segments.any Segment.isOpened then
      (scan lineNo line ⟨fields, "", .outside true⟩).place = .quoted lineNo
    else ∃ fieldStart, scan lineNo line ⟨fields, "", .outside true⟩ =
      ⟨fields ++ (segments.map Segment.field).toArray, "", .outside fieldStart⟩ := by
  induction h generalizing fields with
  | last segment h =>
      cases hopened : segment.isOpened with
      | true =>
          cases h with
          | plain => cases hopened
          | quoted => cases hopened
          | opened before body hbefore hbody =>
              rw [if_pos (by rfl), scan_opened hbefore hbody]
      | false =>
          obtain ⟨fieldStart, hscan⟩ := scan_segment lineNo fields h hopened (.inl rfl)
          rw [List.append_nil] at hscan
          rw [if_neg (by simp [hopened])]
          exact ⟨fieldStart, by simp [hscan, scan_nil, endLine, finishField, Segment.field]⟩
  | more segment rest segments h hclosed hrest ih =>
      have htail : AtSeparator (fieldSeparator :: rest) := .inr rfl
      obtain ⟨fieldStart, hscan⟩ := scan_segment lineNo fields h hclosed htail
      rw [hscan, scan_separator, List.any_cons, hclosed, Bool.false_or]
      have hlater := ih (fields.push segment.field)
      simpa [Segment.field] using hlater

theorem line_of_scan_quoted {line : List Char} {text : String} {fieldStart : Bool}
    (h : (scan lineNo line ⟨fields, text, .outside fieldStart⟩).place = .quoted openedOn) :
    Split.line lineNo line ⟨fields, text, .outside fieldStart⟩ =
      scan lineNo line ⟨fields, text, .outside fieldStart⟩ := by
  by_cases hq : quoteMark ∈ line
  · simp [Split.line, hq]
  · obtain ⟨fields', _, -, hscan⟩ := cut_eq_scan lineNo line hq fields text fieldStart fieldStart
    rw [hscan] at h
    cases h

theorem line_cut {line : List Char} {segments : List Segment} (h : Cut line segments)
    (lineNo : Nat) :
    if segments.any Segment.isOpened then (Split.line lineNo line {}).place = .quoted lineNo
    else ∃ fieldStart, Split.line lineNo line {} =
      ⟨(segments.map Segment.field).toArray, "", .outside fieldStart⟩ := by
  have hscan := scan_cut h lineNo #[]
  cases hopened : segments.any Segment.isOpened with
  | true =>
      rw [hopened, if_pos rfl] at hscan
      rw [if_pos rfl, show ({} : Split) = ⟨#[], "", .outside true⟩ from rfl,
        line_of_scan_quoted hscan, hscan]
  | false =>
      rw [hopened, if_neg (by simp), Array.empty_append] at hscan
      obtain ⟨fieldStart, hscan⟩ := hscan
      rw [if_neg (by simp)]
      exact line_eq_scan hscan

end Split

theorem Row.unlessBlank_eq (row : Row) :
    row.unlessBlank = if ∀ field ∈ row, field = "" then [] else row := by
  simp [Row.unlessBlank, Row.isBlank]

/-- The splitter reads a line as its two-phase grammar: the line is first cut at the separators
outside of quoted sections, and then each segment gives a field. Only if a section has no end is a
further line asked for. -/
theorem readLogicalRow_cut (limits : Limits) (decoded : String)
    (hlength : contentLength (encodeUtf8 decoded) ≤ limits.lineLength)
    (hblank : trim decoded ≠ "") (hcomment : startsComment (trim decoded) = false) :
    ∃ segments, (∀ others, Cut (trim decoded).toList others ↔ others = segments) ∧
      ∀ (rest : List LineRead) (line : Nat) (fingerprint : Fingerprint),
        let position : Position := ⟨.line (encodeUtf8 decoded) :: rest, line, fingerprint⟩
        let read := readLogicalRow limits position
        let fields := segments.map Segment.field
        if ∃ segment ∈ segments, segment.isOpened then
          if rest = [] then read.outcome = .error (.unclosedQuote (line + 1))
          else read.position.rest.length < rest.length
        else
          read.outcome = .ok true ∧ read.position.rest = rest ∧
            read.row = if ∀ field ∈ fields, field = "" then [] else fields := by
  obtain ⟨segments, hcut⟩ := exists_cut (trim decoded).toList
  refine ⟨segments, fun others => ⟨fun h => h.unique hcut, fun h => h ▸ hcut⟩, ?_⟩
  intro rest line fingerprint position read fields
  have hread : read = _ := readLogicalRow_line hlength rest line fingerprint
  have hline := Split.line_cut hcut (line + 1)
  have hany : (∃ segment ∈ segments, segment.isOpened) ↔ segments.any Segment.isOpened = true :=
    List.any_eq_true.symm
  have hignored : ((trim decoded).isEmpty || startsComment (trim decoded)) = false := by
    simp [hblank, hcomment]
  simp only [hignored, Bool.false_eq_true, if_false] at hread
  cases hopened : segments.any Segment.isOpened with
  | true =>
      rw [if_pos (hany.2 hopened)]
      rw [if_pos hopened] at hline
      simp only [hline] at hread
      rw [hread]
      cases rest with
      | nil => simp [readRowFrom, Split.atEnd, hline]
      | cons next rest =>
          have hle := readRowFrom_rest limits (Split.line (line + 1) (trim decoded).toList {}) 1
            (line + 1) (fingerprint.add (trim decoded)) (next :: rest)
          simp only [List.length_cons, Nat.add_sub_cancel] at hle
          exact Nat.lt_add_one_of_le hle
  | false =>
      rw [if_neg (by rw [hany, hopened]; simp)]
      rw [if_neg (by simp [hopened])] at hline
      obtain ⟨fieldStart, hline⟩ := hline
      simp only [hline] at hread
      rw [hread]
      exact ⟨rfl, rfl, Row.unlessBlank_eq fields⟩

theorem readLogicalRow_cut_marks :
    let limits : Limits := {}
    let decoded := "x\"y, \"a,\"\"b\" c\"\"d ,\n"
    contentLength (encodeUtf8 decoded) ≤ limits.lineLength ∧ trim decoded ≠ "" ∧
      startsComment (trim decoded) = false ∧
      (readLogicalRow limits ⟨[.line (encodeUtf8 decoded)], 6, {}⟩).row =
        ["x\"y", "a,\"b c\"\"d", ""] := by
  intro limits decoded
  have hlength : contentLength (encodeUtf8 decoded) ≤ limits.lineLength := by decide +kernel
  have hblank : trim decoded ≠ "" := by decide +kernel
  have hcomment : startsComment (trim decoded) = false := by decide +kernel
  refine ⟨hlength, hblank, hcomment, ?_⟩
  obtain ⟨segments, hcut, hread⟩ := readLogicalRow_cut limits decoded hlength hblank hcomment
  have hbody : Paired ['a', ',', '"', '"', 'b'] :=
    .char 'a' _ (by decide) (.char ',' _ (by decide) (.pair _ (.char 'b' _ (by decide) .nil)))
  let first : Segment := .plain ['x', '"', 'y']
  let second : Segment := .quoted [' '] ['a', ',', '"', '"', 'b'] [' ', 'c', '"', '"', 'd', ' ']
  let third : Segment := .plain []
  have hfirst : first.Sound := .plain _ (by decide) (by decide +kernel)
  have hsecond : second.Sound :=
    .quoted _ _ _ (List.forall_mem_singleton.2 rfl) hbody (by decide) (by decide)
  have hthird : third.Sound := .plain _ (by decide) (by decide)
  have hline : (trim decoded).toList =
      first.text ++ fieldSeparator :: (second.text ++ fieldSeparator :: third.text) := by
    decide +kernel
  obtain rfl : [first, second, third] = segments := (hcut _).1
    (hline ▸ .more _ _ _ hfirst rfl (.more _ _ _ hsecond rfl (.last _ hthird)))
  have hclosed : ¬∃ segment ∈ [first, second, third], segment.isOpened := by decide
  have hok := hread [] 6 {}
  simp only [if_neg hclosed] at hok
  rw [hok.2.2]
  decide +kernel

end DefinitionFiles
