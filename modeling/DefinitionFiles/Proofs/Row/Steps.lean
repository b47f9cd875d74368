import DefinitionFiles.Proofs.Row.Lines
import DefinitionFiles.Proofs.Row.Splitting
import Mathlib

namespace DefinitionFiles

variable {limits : Limits} {split : Split} {joined line : Nat} {fingerprint : Fingerprint}
  {lines : List LineRead}

/-- Reading a row depends on what its lines show and on nothing else of them. -/
theorem readRowFrom_congr (limits : Limits) (split : Split) (joined line : Nat)
    (fingerprint : Fingerprint) {lines others : List LineRead}
    (h : others.map (LineRead.shown limits) = lines.map (LineRead.shown limits)) :
    let read := readRowFrom limits split joined line fingerprint lines
    let other := readRowFrom limits split joined line fingerprint others
    other.outcome = read.outcome ∧ other.row = read.row ∧
      other.position.line = read.position.line ∧
      other.position.fingerprint = read.position.fingerprint ∧
      other.position.rest.map (LineRead.shown limits) =
        read.position.rest.map (LineRead.shown limits) := by
  induction lines generalizing others split joined line fingerprint with
  | nil =>
      obtain rfl := List.map_eq_nil_iff.1 h
      exact ⟨rfl, rfl, rfl, rfl, rfl⟩
  | cons first rest ih =>
      obtain ⟨first', rest', rfl, hfirst, hrest⟩ := List.map_eq_cons_iff.1 h
      simp only [readRowFrom, hfirst]
      cases split.step limits joined line (first.shown limits) with
      | ended outcome row => exact ⟨rfl, rfl, rfl, rfl, hrest⟩
      | onward next => exact ih next (joined + 1) _ _ hrest

def shownTexts (limits : Limits) (lines : List LineRead) : List String :=
  lines.filterMap fun read => (read.shown limits).text?

theorem shownTexts_append (lines more : List LineRead) :
    shownTexts limits (lines ++ more) = shownTexts limits lines ++ shownTexts limits more :=
  List.filterMap_append

theorem foldl_shownTexts_cons (first : LineRead) (rest : List LineRead) :
    (shownTexts limits (first :: rest)).foldl Fingerprint.add fingerprint =
      (shownTexts limits rest).foldl Fingerprint.add
        ((first.shown limits).mark fingerprint) := by
  cases hs : first.shown limits <;> simp [shownTexts, hs, ShownLine.text?, ShownLine.mark]

/-- However reading a row ends, the lines taken are those that are counted and that enter the
fingerprint, if they can. -/
theorem readRowFrom_taken (limits : Limits) (split : Split) (joined line : Nat)
    (fingerprint : Fingerprint) (lines : List LineRead) :
    let read := readRowFrom limits split joined line fingerprint lines
    ∃ taken, lines = taken ++ read.position.rest ∧
      read.position.line = line + (taken.map fun read => (read.shown limits).count).sum ∧
      read.position.fingerprint = (shownTexts limits taken).foldl Fingerprint.add fingerprint := by
  induction lines generalizing split joined line fingerprint with
  | nil => exact ⟨[], rfl, rfl, rfl⟩
  | cons first rest ih =>
      simp only [readRowFrom]
      cases split.step limits joined line (first.shown limits) with
      | ended outcome row =>
          exact ⟨[first], rfl, by simp, (foldl_shownTexts_cons first []).symm⟩
      | onward next =>
          obtain ⟨taken, hlines, hline, hfingerprint⟩ := ih next (joined + 1)
            (line + (first.shown limits).count) ((first.shown limits).mark fingerprint)
          refine ⟨first :: taken, congrArg _ hlines, ?_, ?_⟩
          · simp only [hline, List.map_cons, List.sum_cons, Nat.add_assoc]
          · simp only [hfingerprint, foldl_shownTexts_cons]

def RowRead.EndsEarly (read : RowRead) : Prop :=
  read.outcome ≠ .ok false ∧ ∀ openedOn, read.outcome ≠ .error (.unclosedQuote openedOn)

def RowRead.withMore (more : List LineRead) (read : RowRead) : RowRead :=
  { read with position := { read.position with rest := read.position.rest ++ more } }

theorem readRowFrom_append
    (h : (readRowFrom limits split joined line fingerprint lines).EndsEarly)
    (more : List LineRead) :
    readRowFrom limits split joined line fingerprint (lines ++ more) =
      (readRowFrom limits split joined line fingerprint lines).withMore more := by
  induction lines generalizing split joined line fingerprint with
  | nil =>
      cases hplace : split.place with
      | quoted openedOn => exact absurd (by simp [readRowFrom, Split.atEnd, hplace]) (h.2 openedOn)
      | outside fieldStart => exact absurd (by simp [readRowFrom, Split.atEnd, hplace]) h.1
  | cons first rest ih =>
      simp only [List.cons_append, readRowFrom] at h ⊢
      cases hs : split.step limits joined line (first.shown limits) with
      | ended outcome row => rfl
      | onward next =>
          rw [hs] at h
          exact ih h

def TextFailure.renumber (f : Nat → Nat) : TextFailure → TextFailure
  | .unreadable reason => .unreadable reason
  | .unclosedQuote line => .unclosedQuote (f line)
  | .longLine line length maximum => .longLine (f line) length maximum
  | .manyLines line maximum => .manyLines (f line) maximum
  | .invalidUtf8 line reason => .invalidUtf8 (f line) reason

def RowRead.renumber (f : Nat → Nat) (read : RowRead) : RowRead :=
  { read with
    outcome := read.outcome.mapError (TextFailure.renumber f)
    position := { read.position with line := f read.position.line } }

def LineStep.renumber (f : Nat → Nat) : LineStep → LineStep
  | .onward next => .onward (next.relabel f)
  | .ended outcome left => .ended (outcome.mapError (TextFailure.renumber f)) (left.relabel f)

theorem Split.relabel_takeLine (f : Nat → Nat) (lineNo : Nat) (text : String) (split : Split) :
    (split.takeLine lineNo text).relabel f = (split.relabel f).takeLine (f lineNo) text := by
  obtain ⟨fields, joined, place⟩ := split
  cases place with
  | outside fieldStart => exact relabel_line f lineNo text.toList _
  | quoted openedOn =>
      have hline := relabel_line f lineNo text.toList
        (joinLine ⟨fields, joined, .quoted openedOn⟩)
      rw [relabel_joinLine] at hline
      exact hline

theorem Split.overdue?_relabel (f : Nat → Nat) :
    (split.relabel f).overdue? limits joined = (split.overdue? limits joined).map f := by
  obtain ⟨fields, text, place⟩ := split
  cases place with
  | outside fieldStart => rfl
  | quoted openedOn =>
      exact (apply_ite (Option.map f) (limits.linesPerRow < joined + 1) (some openedOn) none).symm

theorem Split.ignores_relabel (f : Nat → Nat) (text : String) :
    (split.relabel f).ignores text = split.ignores text := by
  obtain ⟨fields, joined, place⟩ := split
  cases place <;> rfl

theorem Split.unlessBlank_relabel (f : Nat → Nat) (split : Split) :
    (split.relabel f).unlessBlank = split.unlessBlank.relabel f := by
  have hrow : (split.relabel f).row = split.row := rfl
  simp only [unlessBlank, hrow, apply_ite (relabel f)]
  rfl

theorem Split.step_relabel (limits : Limits) (joined : Nat) {f : Nat → Nat} {line line' : Nat}
    (hline : f (line + 1) = line' + 1) (split : Split) (shown : ShownLine) :
    (split.relabel f).step limits joined line' shown =
      (split.step limits joined line shown).renumber f := by
  cases shown with
  | unreadable reason => rfl
  | long length =>
      rw [step, step, ← hline]
      rfl
  | invalid reason =>
      rw [step, step, ← hline]
      rfl
  | text text =>
      have htake := relabel_takeLine f (line + 1) text split
      rw [hline] at htake
      simp only [step, ← htake, ignores_relabel, overdue?_relabel]
      cases split.overdue? limits joined with
      | some openedOn => rfl
      | none =>
          cases split.ignores text with
          | true => rfl
          | false =>
              generalize split.takeLine (line + 1) text = next
              obtain ⟨fields, text, place⟩ := next
              cases place with
              | quoted openedOn => rfl
              | outside fieldStart =>
                  exact congrArg (LineStep.ended (.ok true)) (unlessBlank_relabel f _)

theorem readRowFrom_renumber (limits : Limits) (split : Split) (joined line raised : Nat)
    (fingerprint other : Fingerprint) (lines : List LineRead) {f : Nat → Nat}
    (hf : ∀ n, line < n → f n = n + raised) :
    let read := readRowFrom limits split joined line fingerprint lines
    let read' := readRowFrom limits (split.relabel f) joined (line + raised) other lines
    read'.outcome = read.outcome.mapError (TextFailure.renumber f) ∧ read'.row = read.row ∧
      read'.position.line = read.position.line + raised ∧
      read'.position.rest = read.position.rest := by
  induction lines generalizing split joined line fingerprint other with
  | nil =>
      obtain ⟨fields, text, place⟩ := split
      cases place <;> exact ⟨rfl, rfl, rfl, rfl⟩
  | cons first rest ih =>
      have hnumber : f (line + 1) = line + raised + 1 := by
        rw [hf _ (Nat.lt_add_one line), Nat.add_right_comm]
      have hstep := Split.step_relabel limits joined hnumber split (first.shown limits)
      simp only [readRowFrom, hstep]
      cases split.step limits joined line (first.shown limits) with
      | ended outcome row => exact ⟨rfl, rfl, Nat.add_right_comm line raised _, rfl⟩
      | onward next =>
          simp only [LineStep.renumber, Nat.add_right_comm line raised]
          exact ih next (joined + 1) _ _ _ fun n hn => hf n (by omega)

end DefinitionFiles
