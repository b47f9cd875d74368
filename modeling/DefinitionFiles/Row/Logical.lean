import DefinitionFiles.Row.Step

namespace DefinitionFiles

/-- How far a source has been read: what is left of it, the number of the last
line and the fingerprint of the lines so far. -/
structure Position where
  rest : List LineRead := []
  line : Nat := 0
  fingerprint : Fingerprint := {}

def Position.ofFeed (limits : Limits) (feed : Feed) : Position :=
  { rest := feed.reads limits.readLength }

/-- One attempt to read a logical row: whether there was one, its fields, and
where reading goes on. After a failure the row holds the fields finished by then. -/
structure RowRead where
  outcome : Except TextFailure Bool
  row : Row
  position : Position

def readRowFrom (limits : Limits) (split : Split) (joined line : Nat) (fingerprint : Fingerprint) :
    List LineRead → RowRead
  | [] => ⟨split.atEnd, split.row, ⟨[], line, fingerprint⟩⟩
  | first :: rest =>
      let shown := first.shown limits
      match split.step limits joined line shown with
      | .onward next =>
          readRowFrom limits next (joined + 1) (line + shown.count) (shown.mark fingerprint) rest
      | .ended outcome left =>
          ⟨outcome, left.row, ⟨rest, line + shown.count, shown.mark fingerprint⟩⟩

def readLogicalRow (limits : Limits) (position : Position) : RowRead :=
  readRowFrom limits {} 0 position.line position.fingerprint position.rest

theorem readRowFrom_rest (limits : Limits) (split : Split) (joined line : Nat)
    (fingerprint : Fingerprint) (lines : List LineRead) :
    (readRowFrom limits split joined line fingerprint lines).position.rest.length ≤
      lines.length - 1 := by
  induction lines generalizing split joined line fingerprint with
  | nil => exact Nat.le_refl 0
  | cons first rest ih =>
      simp only [readRowFrom, List.length_cons, Nat.add_sub_cancel]
      split
      · exact Nat.le_trans (ih _ _ _ _) (Nat.sub_le rest.length 1)
      · exact Nat.le_refl _

def RowRead.isEnd (read : RowRead) : Bool :=
  match read.outcome with
  | .ok false => true
  | _ => false

theorem readLogicalRow_rest_lt {limits : Limits} {position : Position}
    (h : (readLogicalRow limits position).isEnd = false) :
    (readLogicalRow limits position).position.rest.length < position.rest.length := by
  have hle := readRowFrom_rest limits {} 0 position.line position.fingerprint position.rest
  cases hrest : position.rest with
  | nil => simp [readLogicalRow, hrest, readRowFrom, RowRead.isEnd, Split.atEnd] at h
  | cons read rest =>
      rw [hrest] at hle
      simp only [readLogicalRow, hrest, List.length_cons] at hle ⊢
      omega

def rowReadsFrom (limits : Limits) (reads : Array RowRead) (position : Position) : Array RowRead :=
  let read := readLogicalRow limits position
  if _hend : read.isEnd = true then reads.push read
  else rowReadsFrom limits (reads.push read) read.position
termination_by position.rest.length
decreasing_by exact readLogicalRow_rest_lt (Bool.not_eq_true _ ▸ _hend)

/-- All attempts to read a row, going on after failures, up to the one that finds the
end of the source. -/
def rowReads (limits : Limits) (position : Position) : List RowRead :=
  (rowReadsFrom limits #[] position).toList

theorem rowReadsFrom_toList (limits : Limits) (done : Array RowRead) (position : Position) :
    (rowReadsFrom limits done position).toList = done.toList ++ rowReads limits position := by
  simp only [rowReads]
  suffices ∀ n, ∀ (done : Array RowRead) (position : Position), position.rest.length = n →
      (rowReadsFrom limits done position).toList =
        done.toList ++ (rowReadsFrom limits #[] position).toList from
    this _ done position rfl
  intro n
  induction n using Nat.strongRecOn with
  | ind n ih =>
      intro done position hn
      unfold rowReadsFrom
      by_cases h : (readLogicalRow limits position).isEnd = true
      · simp [h]
      · have hlt : (readLogicalRow limits position).position.rest.length < position.rest.length :=
          readLogicalRow_rest_lt (by simpa using h)
        simp only [h]
        rw [dif_neg (by simp), dif_neg (by simp), ih _ (hn ▸ hlt) _ _ rfl,
          ih _ (hn ▸ hlt) (#[].push _) _ rfl]
        simp

theorem rowReads_eq (limits : Limits) (position : Position) :
    rowReads limits position =
      if (readLogicalRow limits position).isEnd then [readLogicalRow limits position]
      else readLogicalRow limits position :: rowReads limits (readLogicalRow limits position).position := by
  rw [rowReads, rowReadsFrom]
  by_cases h : (readLogicalRow limits position).isEnd = true
  · simp [h]
  · simp [h, rowReadsFrom_toList]

end DefinitionFiles
