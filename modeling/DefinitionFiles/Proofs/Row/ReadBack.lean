import DefinitionFiles.Proofs.Row.Buffers
import DefinitionFiles.Proofs.Row.Joining

namespace DefinitionFiles

open Text

namespace Split

/-- A row whose finished fields are trimmed and which has only characters of some kind. -/
structure MadeOf (p : Char → Prop) (split : Split) : Prop where
  trimmed : ∀ field ∈ split.fields, trim field = field
  fields : ∀ field ∈ split.fields, ∀ c ∈ field.toList, p c
  text : ∀ c ∈ split.text.toList, p c

variable {p : Char → Prop} {lineNo : Nat} {fields : Array String} {text : String} {c : Char}
  {place : SplitPlace} {split : Split}

theorem madeOf_empty : MadeOf p {} := ⟨by simp, by simp, by simp⟩

namespace MadeOf

theorem moved (h : MadeOf p ⟨fields, text, place⟩) (other : SplitPlace) :
    MadeOf p ⟨fields, text, other⟩ := ⟨h.trimmed, h.fields, h.text⟩

theorem push (h : split.MadeOf p) (hc : p c) : (split.push c).MadeOf p where
  trimmed := h.trimmed
  fields := h.fields
  text d hd := by
    have hd : d ∈ split.text.toList ++ [c] := by rwa [← String.toList_push]
    rcases List.mem_append.1 hd with hd | hd
    · exact h.text d hd
    · exact List.mem_singleton.1 hd ▸ hc

theorem withoutText (h : MadeOf p ⟨fields, text, place⟩) (other : SplitPlace) :
    MadeOf p ⟨fields, "", other⟩ := ⟨h.trimmed, h.fields, by simp⟩

theorem finishField (h : split.MadeOf p) : split.finishField.MadeOf p := by
  have hmem : ∀ field ∈ split.fields.push (trim split.text),
      field ∈ split.fields ∨ field = trim split.text := fun field hf => Array.mem_push.1 hf
  refine ⟨fun field hf => ?_, fun field hf c hc => ?_, by simp [Split.finishField]⟩
  · rcases hmem field hf with hf | rfl
    · exact h.trimmed field hf
    · exact trim_eq_self_iff.2 (isTrimmed_trim split.text)
  · rcases hmem field hf with hf | rfl
    · exact h.fields field hf c hc
    · exact h.text c (mem_trim hc)

theorem endLine (h : split.MadeOf p) : split.endLine.MadeOf p := by
  simp only [Split.endLine]
  split
  · exact h
  · exact h.finishField

theorem scan (hmark : p quoteMark) {line : List Char} (hline : ∀ c ∈ line, p c)
    (h : split.MadeOf p) : (scan lineNo line split).MadeOf p := by
  induction line, split using scan_induction lineNo with
  | done split =>
      rw [scan_nil]
      exact h.endLine
  | doubled rest fields text openedOn ih =>
      rw [scan_quoted_mark_mark]
      exact ih (fun c hc => hline c (by simp [hc])) (h.push hmark)
  | closing rest fields text openedOn hrest ih =>
      rw [scan_quoted_mark hrest]
      exact ih (fun c hc => hline c (by simp [hc])) (h.moved _)
  | inside c rest fields text openedOn hc ih =>
      rw [scan_quoted hc]
      exact ih (fun c hc => hline c (by simp [hc])) (h.push (hline c (by simp)))
  | separator rest fields text fieldStart ih =>
      rw [scan_separator]
      exact ih (fun c hc => hline c (by simp [hc])) (h.finishField.moved _)
  | opening rest fields text ih =>
      rw [scan_mark]
      exact ih (fun c hc => hline c (by simp [hc])) (h.withoutText _)
  | plain c rest fields text fieldStart hs hq ih =>
      rw [scan_outside hs hq]
      exact ih (fun c hc => hline c (by simp [hc])) ((h.push (hline c (by simp))).moved _)

theorem cut {line : List Char} (hline : ∀ c ∈ line, p c) (h : split.MadeOf p) :
    (cut line split).MadeOf p := by
  induction line generalizing split with
  | nil =>
      rw [cut_nil]
      exact h.finishField
  | cons c line ih =>
      obtain ⟨hc, hrest⟩ := List.forall_mem_cons.1 hline
      by_cases hs : c = fieldSeparator
      · subst hs
        rw [cut_separator]
        exact ih hrest h.finishField
      · rw [cut_cons hs]
        exact ih hrest (h.push hc)

theorem line (hmark : p quoteMark) {line : List Char} (hline : ∀ c ∈ line, p c)
    (h : split.MadeOf p) : (Split.line lineNo line split).MadeOf p := by
  simp only [Split.line]
  split
  · exact h.scan hmark hline
  · split
    · exact h.scan hmark hline
    · exact h.cut hline

theorem takeLine (hmark : p quoteMark) (hseparator : p valueSeparator) {text : String}
    (htext : ∀ c ∈ text.toList, p c) (h : split.MadeOf p) :
    (split.takeLine lineNo text).MadeOf p := by
  have hjoined : split.joinLine.MadeOf p := by
    simp only [joinLine]
    split
    · exact h
    · exact h.push hseparator
  simp only [Split.takeLine]
  split
  · exact hjoined.line hmark htext
  · exact h.line hmark htext

end MadeOf

end Split

theorem Row.mem_unlessBlank {row : Row} {field : String} (h : field ∈ Row.unlessBlank row) :
    field ∈ row := by
  simp only [Row.unlessBlank] at h
  split at h
  · cases h
  · exact h

theorem Row.unlessBlank_eq_nil_or_filled (row : Row) :
    Row.unlessBlank row = [] ∨ ∃ field ∈ Row.unlessBlank row, field ≠ "" := by
  cases hb : Row.isBlank row with
  | true => exact .inl (by simp [Row.unlessBlank, hb])
  | false =>
      obtain ⟨field, hf, hne⟩ := List.all_eq_false.1 hb
      exact .inr ⟨field, by simpa [Row.unlessBlank, hb] using hf, by simpa using hne⟩

namespace Split.Makes

variable {line : Nat} {split : Split} {texts : List String} {row : Row}

/-- The fields of a row are trimmed and come from its lines, but for marks and separators that
stand for others. -/
theorem madeOf {p : Char → Prop} (h : Makes line split texts row) (hmark : p quoteMark)
    (hseparator : p valueSeparator) (hsplit : split.MadeOf p)
    (htexts : ∀ text ∈ texts, ∀ c ∈ text.toList, p c) :
    ∀ field ∈ row, trim field = field ∧ ∀ c ∈ field.toList, p c := by
  have hrow : ∀ split : Split, split.MadeOf p →
      ∀ field ∈ split.row, trim field = field ∧ ∀ c ∈ field.toList, p c := by
    intro split hs field hf
    have hf : field ∈ split.fields := Array.mem_toList_iff.1 hf
    exact ⟨hs.trimmed field hf, hs.fields field hf⟩
  induction h with
  | ignored line split text h => exact hrow split hsplit
  | closed line split text fieldStart h hplace =>
      intro field hf
      have hnext : (split.takeLine (line + 1) text).MadeOf p :=
        hsplit.takeLine hmark hseparator (htexts text (by simp))
      exact hrow _ hnext field (Row.mem_unlessBlank hf)
  | opened line split text openedOn texts row h hplace hrest ih =>
      exact ih (hsplit.takeLine hmark hseparator (htexts text (by simp)))
        fun other ho => htexts other (List.mem_cons_of_mem text ho)

theorem eq_nil_or_filled (h : Makes line split texts row)
    (hstart : ∀ text, split.ignores text = true → split.row = []) :
    row = [] ∨ ∃ field ∈ row, field ≠ "" := by
  induction h with
  | ignored line split text h => exact .inl (hstart text h)
  | closed line split text fieldStart h hplace => exact Row.unlessBlank_eq_nil_or_filled _
  | opened line split text openedOn texts row h hplace hrest ih =>
      -- between quotes no line is ignored
      exact ih fun other ho => by simp [ignores, hplace] at ho

end Split.Makes

theorem readLogicalRow_fields {limits : Limits} {feed : Feed} {position : Position}
    (hposition : position.rest <:+ feed.reads limits.readLength)
    (h : (readLogicalRow limits position).outcome = .ok true) :
    ∀ field ∈ (readLogicalRow limits position).row, trim field = field ∧ '\n' ∉ field.toList := by
  obtain ⟨texts, hlines, -, -, -, hmakes⟩ := readRowFrom_makes h
  have htexts : ∀ text ∈ texts.map trim, ∀ c ∈ text.toList, c ≠ '\n' := by
    intro trimmed htrimmed c hc
    obtain ⟨text, ht, rfl⟩ := List.mem_map.1 htrimmed
    have hread : .line (encodeUtf8 text) ∈ feed.reads limits.readLength := by
      apply hposition.subset
      rw [hlines]
      exact List.mem_append_left _ (List.mem_map_of_mem ht)
    have hn := lineFeed_not_mem_trim (Feed.lineFeed_of_mem_reads hread)
    exact fun he => hn (he ▸ hc)
  have hmade := hmakes.madeOf (p := (· ≠ '\n')) (by decide) (by decide) Split.madeOf_empty htexts
  exact fun field hf => ⟨(hmade field hf).1, fun hm => (hmade field hf).2 _ hm rfl⟩

/-- A row that is read is in the form in which it reads back when it is written: it has fields
that are trimmed and not all empty, or none. What the buffers and the row held before has no part in
it, neither then nor when it is read back. -/
theorem nextRow_written_back (limits backLimits : Limits) (buffers backBuffers : RowBuffers)
    (row backRow : Row) (position : FeedPosition) :
    let read := nextRow limits buffers row position
    let text := Row.written read.row
    (read.outcome = .ok true →
      (read.row = [] ∨ ∃ field ∈ read.row, field ≠ "") ∧
      (∀ field ∈ read.row, trim field = field ∧ '\n' ∉ field.toList) ∧
      (read.row ≠ [] → backLimits.Allow text →
        let back := nextRow backLimits backBuffers backRow { feed := .ofText (text.push '\n') }
        back.rowRead backLimits = ⟨.ok true, read.row, ⟨[], 1, Fingerprint.add {} text⟩⟩)) ∧
    (read.outcome = .ok false → read.row = []) := by
  intro read text
  have hread := nextRow_rowRead limits buffers row position
  have houtcome : read.outcome = (readLogicalRow limits (position.lines limits)).outcome :=
    congrArg RowRead.outcome hread
  have hrow : read.row = (readLogicalRow limits (position.lines limits)).row :=
    congrArg RowRead.row hread
  refine ⟨fun h => ?_, fun h => hrow.trans (readLogicalRow_end (houtcome ▸ h)).2⟩
  rw [houtcome] at h
  obtain ⟨texts, -, -, -, -, hmakes⟩ := readRowFrom_makes h
  have hfilled : read.row = [] ∨ ∃ field ∈ read.row, field ≠ "" := by
    rw [hrow]
    exact hmakes.eq_nil_or_filled fun _ _ => rfl
  have hfields : ∀ field ∈ read.row, trim field = field ∧ '\n' ∉ field.toList := by
    rw [hrow]
    exact readLogicalRow_fields (List.suffix_refl _) h
  refine ⟨hfilled, hfields, fun hne hallow => ?_⟩
  have hback : Row.ReadsBack backLimits read.row := by
    refine ⟨?_, hfilled.resolve_left hne, fun field hf => (hfields field hf).2, hallow⟩
    exact (List.map_congr_left fun field hf => (hfields field hf).1).trans (List.map_id _)
  exact (nextRow_rowRead backLimits backBuffers backRow _).trans hback.read

/-- A carriage return inside a field, marks in mid-field, a blank of two bytes and a comment in
quotes; and before the row is read back, buffers and a row that are not empty. -/
theorem nextRow_written_back_mixed :
    let feed := Feed.ofText "# note
x\ry , \"\n#z\"\"\n,\" w,\u00a0u\"v\"\u3000,\"\"\r\n"
    let first := nextRow {} {} [] { feed }
    let read := nextRow {} first.buffers first.row first.position
    let row := ["x\ry", ";#z\";, w", "u\"v\"", ""]
    let text := Row.written row
    let back := nextRow ⟨26, 0⟩ ⟨#[34], "\""⟩ ["x", ""] { feed := .ofText (text.push '\n') }
    read.outcome.toOption = some true ∧ read.row = row ∧
      text = "x\ry,\";#z\"\";, w\",\"u\"\"v\"\"\"," ∧ back.row = row := by
  intro feed first read row text back
  have hok : read.outcome.toOption = some true := by decide +kernel
  have hrow : read.row = row := by decide +kernel
  refine ⟨hok, hrow, by decide +kernel, ?_⟩
  cases ho : read.outcome with
  | error failure => simp [ho, Except.toOption] at hok
  | ok more =>
      obtain rfl : more = true := by simpa [ho, Except.toOption] using hok
      obtain ⟨-, -, hback⟩ := (nextRow_written_back {} ⟨26, 0⟩ first.buffers ⟨#[34], "\""⟩ first.row
        ["x", ""] first.position).1 ho
      have hne : read.row ≠ [] := by
        rw [hrow]
        exact List.cons_ne_nil _ _
      have hread := hback hne
      rw [show (nextRow {} first.buffers first.row first.position).row = row from hrow] at hread
      exact congrArg RowRead.row (hread (by simp only [Limits.Allow]; decide +kernel))

end DefinitionFiles
