import DefinitionFiles.Proofs.Feed.Whole
import DefinitionFiles.Proofs.Row.Lines
import DefinitionFiles.Proofs.Row.Splitting

namespace DefinitionFiles

open Text

theorem writtenField_of_needsQuotes {value : String} (h : needsQuotes value = true) :
    (writtenField value).toList = quoteMark :: (doubleQuotes value.toList ++ [quoteMark]) := by
  simp [writtenField, h]

theorem writtenField_of_plain {value : String} (h : needsQuotes value = false) :
    writtenField value = value := by
  simp [writtenField, h]

theorem isTrimmed_writtenField (value : String) : IsTrimmed (writtenField value).toList := by
  cases h : needsQuotes value with
  | false =>
      rw [writtenField_of_plain h]
      apply trim_eq_self_iff.1
      simp only [needsQuotes, Bool.or_eq_false_iff] at h
      simpa using h.2
  | true =>
      have hq : isBlank quoteMark = false := by decide
      have hl : (writtenField value).toList.getLast? = some quoteMark := by
        rw [writtenField_of_needsQuotes h, ← List.cons_append, List.getLast?_concat]
      constructor
      · simp [writtenField_of_needsQuotes h, hq]
      · simp [hl, hq]

theorem toList_written_cons_cons (value next : String) (row : Row) :
    (Row.written (value :: next :: row)).toList =
      (writtenField value).toList ++ fieldSeparator :: (Row.written (next :: row)).toList := by
  simp [Row.written]

theorem toList_written_singleton (value : String) :
    (Row.written [value]).toList = (writtenField value).toList := by
  simp [Row.written]

theorem isTrimmed_written (row : Row) : IsTrimmed (Row.written row).toList := by
  cases row with
  | nil => simp [Row.written, IsTrimmed]
  | cons value row =>
      induction row generalizing value with
      | nil =>
          rw [toList_written_singleton]
          exact isTrimmed_writtenField value
      | cons next row ih =>
          rw [toList_written_cons_cons]
          exact (isTrimmed_writtenField value).append_cons (by decide) (ih next)

theorem trim_written (row : Row) : trim (Row.written row) = Row.written row :=
  trim_eq_self_iff.2 (isTrimmed_written row)

theorem head?_writtenField (value : String) :
    (writtenField value).toList.head? ≠ some commentMark := by
  cases h : needsQuotes value with
  | false =>
      rw [writtenField_of_plain h]
      intro hc
      have hm := List.mem_of_head? hc
      simp only [needsQuotes, Bool.or_eq_false_iff, List.any_eq_false] at h
      simpa using h.1 commentMark hm
  | true => simp [writtenField_of_needsQuotes h, quoteMark, commentMark]

theorem startsComment_written (row : Row) : startsComment (Row.written row) = false := by
  rw [startsComment, beq_eq_false_iff_ne]
  match row with
  | [] => simp [Row.written]
  | [value] =>
      rw [toList_written_singleton]
      exact head?_writtenField value
  | value :: next :: row =>
      rw [toList_written_cons_cons]
      have h := head?_writtenField value
      cases hw : (writtenField value).toList with
      | nil => simp [fieldSeparator, commentMark]
      | cons c rest => simpa [hw] using h

theorem lineFeed_not_mem_writtenField {value : String} (h : '\n' ∉ value.toList) :
    '\n' ∉ (writtenField value).toList := by
  cases hn : needsQuotes value with
  | false =>
      rw [writtenField_of_plain hn]
      exact h
  | true =>
      have hd : '\n' ∉ doubleQuotes value.toList := by
        simp only [doubleQuotes, List.mem_flatMap]
        rintro ⟨c, hc, hm⟩
        have he : '\n' = c := by
          split at hm
          · next hq => simp_all [quoteMark]
          · simpa using hm
        exact h (he ▸ hc)
      simp [writtenField_of_needsQuotes hn, hd, quoteMark]

theorem lineFeed_not_mem_written {row : Row} (h : ∀ field ∈ row, '\n' ∉ field.toList) :
    '\n' ∉ (Row.written row).toList := by
  cases row with
  | nil => simp [Row.written]
  | cons value row =>
      induction row generalizing value with
      | nil =>
          rw [toList_written_singleton]
          exact lineFeed_not_mem_writtenField (h value (by simp))
      | cons next row ih =>
          have hv := lineFeed_not_mem_writtenField (h value (by simp))
          have hr := ih next (fun field hf => h field (List.mem_cons_of_mem value hf))
          rw [toList_written_cons_cons]
          simp only [List.mem_append, List.mem_cons, not_or]
          exact ⟨hv, by decide, hr⟩

def writtenRows : List Row → String
  | [] => ""
  | row :: rows => (Row.written row).push '\n' ++ writtenRows rows

/-- Whether a line keeps within the limits. No line is as long as the greatest number
that a limit can be set to. -/
def Limits.Allow (limits : Limits) (line : String) : Prop :=
  (encodeUtf8 line).length ≤ limits.lineLength ∧ (encodeUtf8 line).length < Limits.greatest

theorem reads_text {limits : Limits} {text : String} (hline : '\n' ∉ text.toList)
    (hlimits : limits.Allow text) (rest : Feed) :
    Feed.reads limits.readLength (.ofText (text.push '\n') ++ rest) =
      .line (encodeUtf8 (text.push '\n')) :: rest.reads limits.readLength := by
  have hlength : (encodeUtf8 text).length < limits.readLength := by
    have h := hlimits.1
    have hg := hlimits.2
    simp only [Limits.readLength]
    omega
  rw [Feed.ofText, encodeUtf8_push_lineFeed]
  exact Feed.reads_line (lineFeed_not_mem_encodeUtf8 hline) hlength rest

theorem ofFeed_text {limits : Limits} {text : String} (hline : '\n' ∉ text.toList)
    (hlimits : limits.Allow text) :
    Position.ofFeed limits (.ofText (text.push '\n')) =
      ⟨[.line (encodeUtf8 (text.push '\n'))], 0, {}⟩ := by
  have hr := reads_text hline hlimits []
  rw [List.append_nil] at hr
  rw [Position.ofFeed, hr]
  rfl

theorem ofFeed_unterminated {limits : Limits} {text : String} (hline : '\n' ∉ text.toList)
    (hne : text ≠ "") (hlimits : limits.Allow text) :
    Position.ofFeed limits (.ofText text) = ⟨[.line (encodeUtf8 text)], 0, {}⟩ := by
  have hbytes : encodeUtf8 text ≠ [] := fun he =>
    hne (encodeUtf8_inj (he.trans (encodeUtf8_eq_flatMap "").symm))
  have hwhole := wholeLines_of_not_mem (lineFeed_not_mem_encodeUtf8 hline) hbytes
  have hread : (Feed.ofText text).reads limits.readLength = [.line (encodeUtf8 text)] := by
    have hlength : (encodeUtf8 text).length ≤ limits.readLength := by
      have h := hlimits.1
      have hg := hlimits.2
      simp only [Limits.readLength]
      omega
    have hreads : (Feed.ofText text).reads limits.readLength =
        (wholeLines (encodeUtf8 text)).map .line :=
      Feed.reads_eq_wholeLines (by simpa [hwhole] using hlength)
    rwa [hwhole] at hreads
  rw [Position.ofFeed, hread]

theorem reads_writtenRows_cons {limits : Limits} {row : Row} (rows : List Row)
    (hline : ∀ field ∈ row, '\n' ∉ field.toList) (hlimits : limits.Allow (Row.written row)) :
    (Feed.ofText (writtenRows (row :: rows))).reads limits.readLength =
      .line (encodeUtf8 ((Row.written row).push '\n')) ::
        (Feed.ofText (writtenRows rows)).reads limits.readLength := by
  have hfeed : Feed.ofText (writtenRows (row :: rows)) =
      .ofText ((Row.written row).push '\n') ++ .ofText (writtenRows rows) := by
    simp [Feed.ofText, Feed.ofBytes, writtenRows, encodeUtf8_append]
  rw [hfeed, reads_text (lineFeed_not_mem_written hline) hlimits]

theorem readLogicalRow_line {limits : Limits} {decoded : String}
    (hlength : contentLength (encodeUtf8 decoded) ≤ limits.lineLength) (rest : List LineRead)
    (line : Nat) (fingerprint : Fingerprint) :
    readLogicalRow limits ⟨.line (encodeUtf8 decoded) :: rest, line, fingerprint⟩ =
      let text := trim decoded
      let next := Split.line (line + 1) text.toList {}
      let position : Position := ⟨rest, line + 1, fingerprint.add text⟩
      if text.isEmpty || startsComment text then ⟨.ok true, [], position⟩
      else
        match next.place with
        | .quoted _ => readRowFrom limits next 1 (line + 1) (fingerprint.add text) rest
        | .outside _ => ⟨.ok true, Row.unlessBlank next.row, position⟩ := by
  simp only [readLogicalRow]
  rw [readRowFrom_line hlength (decodeUtf8_encodeUtf8 _) (by simp)]
  rfl

theorem Limits.Allow.contentLength_le {limits : Limits} {text : String} (h : limits.Allow text) :
    contentLength (encodeUtf8 (text.push '\n')) ≤ limits.lineLength := by
  rw [encodeUtf8_push_lineFeed]
  exact Nat.le_trans (contentLength_lineFeed_le _) h.1

theorem readLogicalRow_text {limits : Limits} {text : String} (htext : IsTrimmed text.toList)
    (hlimits : limits.Allow text) (rest : List LineRead) (line : Nat) (fingerprint : Fingerprint) :
    readLogicalRow limits ⟨.line (encodeUtf8 (text.push '\n')) :: rest, line, fingerprint⟩ =
      let next := Split.line (line + 1) text.toList {}
      let position : Position := ⟨rest, line + 1, fingerprint.add text⟩
      if text.isEmpty || startsComment text then ⟨.ok true, [], position⟩
      else
        match next.place with
        | .quoted _ => readRowFrom limits next 1 (line + 1) (fingerprint.add text) rest
        | .outside _ => ⟨.ok true, Row.unlessBlank next.row, position⟩ := by
  have htrim : trim (text.push '\n') = text := by
    rw [trim_push_blank _ (by decide), trim_eq_self_iff.2 htext]
  have hread := readLogicalRow_line hlimits.contentLength_le rest line fingerprint
  rwa [htrim] at hread

theorem line_written (lineNo : Nat) (row : Row) :
    let text := Row.written row
    (text = "" → Row.unlessBlank (row.map trim) = []) ∧
      (text ≠ "" → ∃ fieldStart, Split.line lineNo text.toList {} =
        ⟨(row.map trim).toArray, "", .outside fieldStart⟩) := by
  cases row with
  | nil => simp [Row.written, Row.unlessBlank]
  | cons value row =>
      obtain ⟨fieldStart, hscan⟩ := Split.scan_written lineNo value row #[]
      rw [Array.empty_append] at hscan
      refine ⟨?_, fun _ => Split.line_eq_scan hscan⟩
      intro hw
      rw [hw] at hscan
      have hr : ((value :: row).map trim) = [""] := by
        have hf := congrArg Split.row hscan
        simpa [Split.row, Split.scan, Split.endLine, Split.finishField, trim, trimEnd, trimStart] using hf.symm
      rw [hr]
      rfl

theorem readLogicalRow_of_trim {limits : Limits} {decoded : String} {row : Row}
    (hlength : contentLength (encodeUtf8 decoded) ≤ limits.lineLength)
    (htrim : trim decoded = Row.written row) (rest : List LineRead) (line : Nat)
    (fingerprint : Fingerprint) :
    readLogicalRow limits ⟨.line (encodeUtf8 decoded) :: rest, line, fingerprint⟩ =
      ⟨.ok true, Row.unlessBlank (row.map trim),
        ⟨rest, line + 1, fingerprint.add (Row.written row)⟩⟩ := by
  obtain ⟨hempty, hsplit⟩ := line_written (line + 1) row
  rw [readLogicalRow_line hlength, htrim]
  simp only [startsComment_written, Bool.or_false]
  by_cases hw : Row.written row = ""
  · simp [hw, hempty hw]
  · obtain ⟨fieldStart, hline⟩ := hsplit hw
    simp [hw, hline, Split.row]

theorem readLogicalRow_written {limits : Limits} {row : Row}
    (hlimits : limits.Allow (Row.written row)) (rest : List LineRead) (line : Nat)
    (fingerprint : Fingerprint) :
    readLogicalRow limits
        ⟨.line (encodeUtf8 ((Row.written row).push '\n')) :: rest, line, fingerprint⟩ =
      ⟨.ok true, Row.unlessBlank (row.map trim),
        ⟨rest, line + 1, fingerprint.add (Row.written row)⟩⟩ := by
  refine readLogicalRow_of_trim hlimits.contentLength_le ?_ rest line fingerprint
  rw [trim_push_blank _ (by decide), trim_written]

/-- A row that reads back as it was written. -/
structure Row.ReadsBack (limits : Limits) (row : Row) : Prop where
  trimmed : row.map trim = row
  filled : ∃ field ∈ row, field ≠ ""
  lines : ∀ field ∈ row, '\n' ∉ field.toList
  allowed : limits.Allow (Row.written row)

theorem Row.ReadsBack.unlessBlank {limits : Limits} {row : Row} (h : row.ReadsBack limits) :
    Row.unlessBlank (row.map trim) = row := by
  obtain ⟨field, hf, hne⟩ := h.filled
  have hblank : Row.isBlank row = false := List.all_eq_false.2 ⟨field, hf, by simpa using hne⟩
  rw [h.trimmed, Row.unlessBlank, hblank]
  rfl

theorem Row.ReadsBack.ne_nil {limits : Limits} {row : Row} (h : row.ReadsBack limits) :
    row ≠ [] := by
  obtain ⟨field, hf, -⟩ := h.filled
  exact List.ne_nil_of_mem hf

theorem Row.ReadsBack.read {limits : Limits} {row : Row} (h : row.ReadsBack limits) :
    readLogicalRow limits (.ofFeed limits (.ofText ((Row.written row).push '\n'))) =
      ⟨.ok true, row, ⟨[], 1, Fingerprint.add {} (Row.written row)⟩⟩ := by
  have hline := lineFeed_not_mem_written h.lines
  rw [ofFeed_text hline h.allowed, readLogicalRow_written h.allowed, h.unlessBlank]

theorem Row.ReadsBack.read_unterminated {limits : Limits} {row : Row}
    (h : row.ReadsBack limits) :
    readLogicalRow limits (.ofFeed limits (.ofText (Row.written row))) =
      ⟨.ok true, row, ⟨[], 1, Fingerprint.add {} (Row.written row)⟩⟩ := by
  have hline := lineFeed_not_mem_written h.lines
  have hne : Row.written row ≠ "" := by
    intro he
    have hblank := (line_written 1 row).1 he
    rw [h.unlessBlank] at hblank
    exact h.ne_nil hblank
  have hlength : contentLength (encodeUtf8 (Row.written row)) ≤ limits.lineLength := by
    rw [contentLength_of_not_mem (lineFeed_not_mem_encodeUtf8 hline)]
    exact h.allowed.1
  rw [ofFeed_unterminated hline hne h.allowed,
    readLogicalRow_of_trim hlength (trim_written row), h.unlessBlank]

theorem rowReads_writtenRows_cons {limits : Limits} {row : Row} (rows : List Row)
    (hline : ∀ field ∈ row, '\n' ∉ field.toList) (hlimits : limits.Allow (Row.written row))
    (line : Nat) (fingerprint : Fingerprint) :
    let start (rows : List Row) := (Feed.ofText (writtenRows rows)).reads limits.readLength
    let next : Position := ⟨start rows, line + 1, fingerprint.add (Row.written row)⟩
    rowReads limits ⟨start (row :: rows), line, fingerprint⟩ =
      ⟨.ok true, Row.unlessBlank (row.map trim), next⟩ :: rowReads limits next := by
  intro start next
  rw [rowReads_eq, show start (row :: rows) = _ from reads_writtenRows_cons rows hline hlimits,
    readLogicalRow_written hlimits]
  rfl

theorem rowReads_end (limits : Limits) (line : Nat) (fingerprint : Fingerprint) :
    rowReads limits ⟨[], line, fingerprint⟩ = [⟨.ok false, [], ⟨[], line, fingerprint⟩⟩] := by
  rw [rowReads_eq]
  rfl

/-- What an attempt to read a row shows: whether there was one, the number of its last line
and its fields. -/
def RowRead.shown (read : RowRead) : Except TextFailure Bool × Nat × Row :=
  (read.outcome, read.position.line, read.row)

def RowRead.told (read : RowRead) : (Except TextFailure Bool × Nat × Row) × Fingerprint :=
  (read.shown, read.position.fingerprint)

theorem shown_rowReads_writtenRows (limits : Limits) (rows : List Row) (line : Nat)
    (fingerprint : Fingerprint) (hlines : ∀ row ∈ rows, ∀ field ∈ row, '\n' ∉ field.toList)
    (hlimits : ∀ row ∈ rows, limits.Allow (Row.written row)) :
    (rowReads limits ⟨(Feed.ofText (writtenRows rows)).reads limits.readLength, line,
        fingerprint⟩).map RowRead.shown =
      rows.mapIdx (fun i row => (.ok true, line + i + 1, Row.unlessBlank (row.map trim))) ++
        [(.ok false, line + rows.length, [])] := by
  induction rows generalizing line fingerprint with
  | nil =>
      have hfeed : (Feed.ofText (writtenRows [])).reads limits.readLength = [] := rfl
      rw [hfeed, rowReads_end]
      rfl
  | cons row rows ih =>
      have hi := ih (line + 1) (fingerprint.add (Row.written row))
        (fun other ho => hlines other (List.mem_cons_of_mem row ho))
        (fun other ho => hlimits other (List.mem_cons_of_mem row ho))
      rw [rowReads_writtenRows_cons rows (hlines row List.mem_cons_self)
        (hlimits row List.mem_cons_self), List.map_cons, hi]
      simp [RowRead.shown, List.mapIdx_cons, Nat.add_assoc, Nat.add_comm 1]

/-- Rows written one below the other read back one by one: each from its own line, with its
fields trimmed, and then the end of the source. -/
theorem rowReads_writtenRows (limits : Limits) (rows : List Row)
    (hlines : ∀ row ∈ rows, ∀ field ∈ row, '\n' ∉ field.toList)
    (hlimits : ∀ row ∈ rows, limits.Allow (Row.written row)) :
    (rowReads limits (.ofFeed limits (.ofText (writtenRows rows)))).map RowRead.shown =
      rows.mapIdx (fun i row => (.ok true, i + 1, Row.unlessBlank (row.map trim))) ++
        [(.ok false, rows.length, [])] := by
  have h := shown_rowReads_writtenRows limits rows 0 {} hlines hlimits
  simp only [Nat.zero_add] at h
  exact h

theorem rowReads_writtenRows_mixed :
    let rows : List Row := [["*a,\"b", " #c\r", "d;\t"], [], ["", " "], ["#"]]
    (∀ row ∈ rows, ∀ field ∈ row, '\n' ∉ field.toList) ∧
      (∀ row ∈ rows, Limits.Allow ⟨21, 0⟩ (Row.written row)) ∧
      (rowReads ⟨21, 0⟩ (.ofFeed ⟨21, 0⟩ (.ofText (writtenRows rows)))).map RowRead.shown =
        [(.ok true, 1, ["*a,\"b", "#c", "d;"]), (.ok true, 2, []), (.ok true, 3, []),
          (.ok true, 4, ["#"]), (.ok false, 4, [])] := by
  have hlines : ∀ row ∈ [["*a,\"b", " #c\r", "d;\t"], [], ["", " "], ["#"]],
      ∀ field ∈ row, '\n' ∉ field.toList := by decide
  have hlimits : ∀ row ∈ ([["*a,\"b", " #c\r", "d;\t"], [], ["", " "], ["#"]] : List Row),
      Limits.Allow ⟨21, 0⟩ (Row.written row) := by
    simp only [Limits.Allow]
    decide
  refine ⟨hlines, hlimits, ?_⟩
  rw [rowReads_writtenRows ⟨21, 0⟩ _ hlines hlimits]
  rfl

end DefinitionFiles
