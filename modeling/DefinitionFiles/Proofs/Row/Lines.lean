import DefinitionFiles.Row.Logical

namespace DefinitionFiles

open Text

theorem Text.encodeUtf8_of_decodeUtf8 {bytes : List UInt8} {text : String}
    (h : decodeUtf8 bytes = .ok text) : encodeUtf8 text = bytes := by
  simp only [decodeUtf8, String.fromUTF8?] at h
  split at h
  · rename_i found hfound
    split at hfound
    · cases hfound
      cases h
      simp [encodeUtf8, String.fromUTF8]
    · cases hfound
  · cases h

theorem Text.encodeUtf8_inj {text other : String} (h : encodeUtf8 text = encodeUtf8 other) :
    text = other := by
  have hd := congrArg decodeUtf8 h
  rw [decodeUtf8_encodeUtf8, decodeUtf8_encodeUtf8] at hd
  exact Except.ok.inj hd

namespace Split

theorem overdue?_eq_some_iff {limits : Limits} {joined openedOn : Nat} {split : Split} :
    split.overdue? limits joined = some openedOn ↔
      split.place = .quoted openedOn ∧ limits.linesPerRow ≤ joined := by
  cases hp : split.place with
  | outside fieldStart => simp [overdue?, hp]
  | quoted other =>
      have hmany : limits.linesPerRow < joined + 1 ↔ limits.linesPerRow ≤ joined :=
        Nat.lt_add_one_iff
      simp only [overdue?, hp, hmany, Option.ite_none_right_eq_some, Option.some.injEq,
        SplitPlace.quoted.injEq, and_comm]

theorem overdue?_eq_none_iff {limits : Limits} {joined : Nat} {split : Split} :
    split.overdue? limits joined = none ↔
      ∀ openedOn, split.place = .quoted openedOn → joined < limits.linesPerRow := by
  rw [Option.eq_none_iff_forall_ne_some]
  simp only [ne_eq, overdue?_eq_some_iff, not_and, Nat.not_le]

variable {limits : Limits} {split next left : Split} {joined line : Nat} {shown : ShownLine}

theorem step_onward (h : split.step limits joined line shown = .onward next) :
    ∃ text openedOn, shown = .text text ∧ split.overdue? limits joined = none ∧
      split.ignores text = false ∧ next = split.takeLine (line + 1) text ∧
      next.place = .quoted openedOn := by
  cases shown with
  | unreadable reason => cases h
  | long length => cases h
  | invalid reason => cases h
  | text text =>
      simp only [step] at h
      split at h
      · cases h
      · rename_i hoverdue
        split at h
        · cases h
        · rename_i hignores
          split at h
          · rename_i openedOn hplace
            cases h
            exact ⟨text, openedOn, rfl, hoverdue, by simpa using hignores, rfl, hplace⟩
          · cases h

theorem step_ended_ne {outcome : Except TextFailure Bool}
    (h : split.step limits joined line shown = .ended outcome left) : outcome ≠ .ok false := by
  rintro rfl
  cases shown with
  | unreadable reason => cases h
  | long length => cases h
  | invalid reason => cases h
  | text text =>
      simp only [step] at h
      split at h
      · cases h
      · split at h
        · cases h
        · split at h <;> cases h

/-- The row that some trimmed lines make up, the last one being the first to leave no quotes
open. -/
inductive Makes : Nat → Split → List String → Row → Prop
  | ignored (line : Nat) (split : Split) (text : String) (h : split.ignores text = true) :
      Makes line split [text] split.row
  | closed (line : Nat) (split : Split) (text : String) (fieldStart : Bool)
      (h : split.ignores text = false)
      (hplace : (split.takeLine (line + 1) text).place = .outside fieldStart) :
      Makes line split [text] (Row.unlessBlank (split.takeLine (line + 1) text).row)
  | opened (line : Nat) (split : Split) (text : String) (openedOn : Nat) (texts : List String)
      (row : Row) (h : split.ignores text = false)
      (hplace : (split.takeLine (line + 1) text).place = .quoted openedOn)
      (hrest : Makes (line + 1) (split.takeLine (line + 1) text) texts row) :
      Makes line split (text :: texts) row

end Split

theorem LineRead.shown_line {limits : Limits} {bytes : List UInt8} {decoded : String}
    (hlength : contentLength bytes ≤ limits.lineLength) (hdecoded : decodeUtf8 bytes = .ok decoded) :
    (LineRead.line bytes).shown limits = .text (trim decoded) := by
  simp [LineRead.shown, Nat.not_lt.2 hlength, hdecoded]

theorem readRowFrom_line {limits : Limits} {split : Split} {joined : Nat} {bytes : List UInt8}
    {decoded : String} (hlength : contentLength bytes ≤ limits.lineLength)
    (hdecoded : decodeUtf8 bytes = .ok decoded)
    (hjoined : ∀ openedOn, split.place = .quoted openedOn → joined < limits.linesPerRow)
    (line : Nat) (fingerprint : Fingerprint) (rest : List LineRead) :
    readRowFrom limits split joined line fingerprint (.line bytes :: rest) =
      let text := trim decoded
      let next := split.takeLine (line + 1) text
      let position : Position := ⟨rest, line + 1, fingerprint.add text⟩
      if split.ignores text then ⟨.ok true, split.row, position⟩
      else
        match next.place with
        | .quoted _ => readRowFrom limits next (joined + 1) (line + 1) (fingerprint.add text) rest
        | .outside _ => ⟨.ok true, Row.unlessBlank next.row, position⟩ := by
  simp only [readRowFrom, LineRead.shown_line hlength hdecoded, Split.step,
    Split.overdue?_eq_none_iff.2 hjoined, ShownLine.count, ShownLine.mark, ShownLine.text?,
    Option.elim_some]
  cases split.ignores (trim decoded) with
  | true => rfl
  | false =>
      cases (split.takeLine (line + 1) (trim decoded)).place with
      | quoted openedOn => rfl
      | outside fieldStart => simp only [Bool.false_eq_true, if_false, Split.row_unlessBlank]

theorem readRowFrom_cons_ok {limits : Limits} {split : Split} {joined line : Nat}
    {fingerprint : Fingerprint} {first : LineRead} {rest : List LineRead} {more : Bool}
    (h : (readRowFrom limits split joined line fingerprint (first :: rest)).outcome = .ok more) :
    ∃ decoded, first = .line (encodeUtf8 decoded) ∧
      contentLength (encodeUtf8 decoded) ≤ limits.lineLength ∧
      ∀ openedOn, split.place = .quoted openedOn → joined < limits.linesPerRow := by
  cases first with
  | failed reason => simp [readRowFrom, LineRead.shown, Split.step] at h
  | line bytes =>
      by_cases hlong : limits.lineLength < contentLength bytes
      · simp [readRowFrom, LineRead.shown, hlong, Split.step] at h
      · cases hd : decodeUtf8 bytes with
        | error fault => simp [readRowFrom, LineRead.shown, hlong, hd, Split.step] at h
        | ok decoded =>
            obtain rfl := encodeUtf8_of_decodeUtf8 hd
            refine ⟨decoded, rfl, Nat.not_lt.1 hlong, ?_⟩
            rw [← Split.overdue?_eq_none_iff, Option.eq_none_iff_forall_ne_some]
            intro openedOn ho
            simp [readRowFrom, LineRead.shown_line (Nat.not_lt.1 hlong) hd, Split.step, ho] at h

/-- A row that is read is made up of the lines taken for it, and these are what is added to
the line number and the fingerprint. -/
theorem readRowFrom_makes {limits : Limits} {split : Split} {joined line : Nat}
    {fingerprint : Fingerprint} {lines : List LineRead}
    (h : (readRowFrom limits split joined line fingerprint lines).outcome = .ok true) :
    let read := readRowFrom limits split joined line fingerprint lines
    ∃ decoded : List String,
      lines = decoded.map (fun text => .line (encodeUtf8 text)) ++ read.position.rest ∧
      (∀ text ∈ decoded, contentLength (encodeUtf8 text) ≤ limits.lineLength) ∧
      read.position.line = line + decoded.length ∧
      read.position.fingerprint = (decoded.map trim).foldl Fingerprint.add fingerprint ∧
      split.Makes line (decoded.map trim) read.row := by
  -- a line that leaves quotes open is one more line of the row that the lines after it make up
  induction lines generalizing split joined line fingerprint with
  | nil => exact absurd h split.atEnd_ne_ok_true
  | cons first rest ih =>
      obtain ⟨decoded, rfl, hlength, hjoined⟩ := readRowFrom_cons_ok h
      rw [readRowFrom_line hlength (decodeUtf8_encodeUtf8 decoded) hjoined] at h ⊢
      simp only at h ⊢
      cases hi : split.ignores (trim decoded) with
      | true =>
          exact ⟨[decoded], rfl, by simpa using hlength, rfl, rfl, .ignored line split _ hi⟩
      | false =>
          simp only [hi, Bool.false_eq_true, if_false] at h ⊢
          cases hp : (split.takeLine (line + 1) (trim decoded)).place with
          | outside fieldStart =>
              exact ⟨[decoded], rfl, by simpa using hlength, rfl, rfl,
                .closed line split _ fieldStart hi hp⟩
          | quoted openedOn =>
              simp only [hp] at h ⊢
              obtain ⟨later, hlines, hlengths, hline, hfingerprint, hmakes⟩ := ih h
              refine ⟨decoded :: later, congrArg _ hlines, ?_, ?_, hfingerprint,
                .opened line split _ openedOn _ _ hi hp hmakes⟩
              · exact List.forall_mem_cons.2 ⟨hlength, hlengths⟩
              · rw [hline, List.length_cons]
                omega

end DefinitionFiles
