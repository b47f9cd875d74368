import DefinitionFiles.Proofs.Columns.Header
import DefinitionFiles.Proofs.Row.RoundTrip

namespace DefinitionFiles.Columns

open Text

variable {columns : Columns}

theorem length_markFirst (group : List String) : (markFirst group).length = group.length := by
  cases group <;> rfl

theorem length_header (columns : Columns) : columns.header.length = columns.size := by
  simp [header, size, names, List.length_flatMap, List.length_flatten, length_markFirst]

theorem WellFormed.readsBack_header (h : columns.WellFormed)
    (hlines : ∀ name ∈ columns.names, '\n' ∉ name.toList) {limits : Limits}
    (hallowed : limits.Allow columns.written) : Row.ReadsBack limits columns.header :=
  ⟨h.trim_header, h.header_not_blank, lineFeed_not_mem_header hlines, hallowed⟩

/-- The header that is written from columns, with or without a line feed after it, reads as a row
with a field for each of them, and that row names the same columns again. -/
theorem ofHeader_written {header : List String} (hcolumns : ofHeader header = .ok columns)
    (hlines : ∀ name ∈ columns.names, '\n' ∉ name.toList) {limits : Limits}
    (hallowed : limits.Allow columns.written) :
    ∀ text ∈ [columns.written, columns.written.push '\n'],
      let read := readLogicalRow limits (.ofFeed limits (.ofText text))
      read.outcome = .ok true ∧ read.row.length = columns.size ∧
        ofHeader read.row = .ok columns := by
  have hwell := wellFormed_of_ofHeader hcolumns
  have hback := hwell.readsBack_header hlines hallowed
  intro text htext read
  have hread : read = ⟨.ok true, columns.header, ⟨[], 1, Fingerprint.add {} columns.written⟩⟩ := by
    have htext : text = columns.written ∨ text = columns.written.push '\n' := by simpa using htext
    rcases htext with rfl | rfl
    · exact hback.read_unterminated
    · exact hback.read
  rw [hread]
  exact ⟨rfl, length_header columns, hwell.ofHeader_header⟩

theorem ofHeader_written_marks :
    let header := ["\u00a0#id", " a,\"b ", "* v", "w w", "**v", "*\t#id,", "v"]
    let columns : Columns := ⟨["#id", "a,\"b"], [["v", "w w"], ["*v"], ["#id,", "v"]]⟩
    ofHeader header = .ok columns ∧ (∀ name ∈ columns.names, '\n' ∉ name.toList) ∧
      columns.written = "\"#id\",\"a,\"\"b\",*v,w w,**v,\"*#id,\",v" ∧
      Limits.Allow ⟨38, 0⟩ columns.written ∧
      ∀ text ∈ [columns.written, columns.written.push '\n'],
        let read := readLogicalRow ⟨38, 0⟩ (.ofFeed ⟨38, 0⟩ (.ofText text))
        read.outcome = .ok true ∧ read.row.length = 7 ∧ ofHeader read.row = .ok columns := by
  intro header columns
  have hcolumns : ofHeader header = .ok columns := rfl
  have hlines : ∀ name ∈ columns.names, '\n' ∉ name.toList := by decide +kernel
  have hallowed : Limits.Allow ⟨38, 0⟩ columns.written := by
    simp only [Limits.Allow]
    decide +kernel
  exact ⟨hcolumns, hlines, by decide +kernel, hallowed, ofHeader_written hcolumns hlines hallowed⟩

end DefinitionFiles.Columns
