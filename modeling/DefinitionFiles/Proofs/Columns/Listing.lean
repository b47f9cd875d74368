import DefinitionFiles.Proofs.Columns.Pairing
import DefinitionFiles.Proofs.Columns.Runs
import DefinitionFiles.Proofs.Defaults.Layers

namespace DefinitionFiles

theorem Record.pairUp_append_replicate (names : List String) (fields : Row) (n : Nat) :
    pairUp names (fields ++ List.replicate n "") = pairUp names fields := by
  induction names generalizing fields n with
  | nil => rfl
  | cons name names ih =>
      cases fields with
      | cons field fields => simp [pairUp, ih]
      | nil =>
          cases n with
          | zero => rfl
          | succ n => simpa [pairUp, List.replicate_succ] using ih [] n

namespace Columns

theorem deal_append_replicate (groups : List (List String)) (fields : Row) (n : Nat) :
    deal groups (fields ++ List.replicate n "") = deal groups fields := by
  induction groups generalizing fields n with
  | nil => rfl
  | cons group groups ih =>
      rw [deal, deal, Record.ofFields, Record.pairUp_append_replicate, List.drop_append,
        List.drop_replicate, ih]
      rfl

def padded (columns : Columns) (row : Row) : Row := row.rightpad columns.size ""

theorem length_padded {columns : Columns} {row : Row} (h : row.length ≤ columns.size) :
    (columns.padded row).length = columns.size := by
  rw [padded, List.length_rightpad, Nat.max_eq_left h]

theorem getElem?_padded_iff {columns : Columns} {row : Row} {k : Nat} {field : String}
    (h : field ≠ "") : (columns.padded row)[k]? = some field ↔ row[k]? = some field := by
  rw [padded, List.rightpad]
  by_cases hk : k < row.length
  · rw [List.getElem?_append_left hk]
  · have hrow : row[k]? = none := List.getElem?_eq_none (Nat.not_lt.1 hk)
    rw [List.getElem?_append_right (Nat.not_lt.1 hk), hrow]
    simp [List.getElem?_replicate, h.symm]

theorem accepts_iff {columns : Columns} {width : RowWidth} {count : Nat} :
    columns.accepts width count = true ↔
      count ≤ columns.size ∧ (width = .exact → columns.size ≤ count) := by
  cases width with
  | exact => simp [accepts, Nat.le_antisymm_iff]
  | shortAllowed => simp [accepts]

theorem assign_eq_error_iff {columns : Columns} {width : RowWidth} {row : Row} {fault : ShapeFault} :
    columns.assign width row = .error fault ↔
      (columns.size < row.length ∨ width = .exact ∧ row.length < columns.size) ∧
        fault = .fieldCount row.length columns.size := by
  rw [assign]
  split
  · rename_i h
    obtain ⟨hle, hexact⟩ := accepts_iff.1 h
    simp only [reduceCtorEq, false_iff, not_and]
    rintro (hlong | ⟨rfl, hshort⟩)
    · omega
    · exact absurd (hexact rfl) (Nat.not_le.2 hshort)
  · rename_i h
    rw [accepts_iff, Classical.not_and_iff_not_or_not, Classical.not_imp, Nat.not_le, Nat.not_le] at h
    simp [h, eq_comm]

theorem assign_padded {columns : Columns} {width : RowWidth} {row : Row}
    (h : columns.accepts width row.length = true) :
    columns.assign width row = columns.assign .exact (columns.padded row) := by
  have hfits : columns.accepts .exact (columns.padded row).length = true := by
    simp [accepts, length_padded (accepts_iff.1 h).1]
  rw [assign, assign, if_pos h, if_pos hfits, padded, List.rightpad, Record.ofFields,
    Record.ofFields, Record.pairUp_append_replicate, List.drop_append, List.drop_replicate,
    deal_append_replicate]

end Columns

theorem Record.Pairs.map_value {record : Record} {names : List String} {fields : Row}
    (h : record.Pairs names fields) (hlength : names.length ≤ fields.length) :
    names.map record.value = fields.take names.length := by
  apply List.ext_getElem
  · simp [hlength]
  · intro i hi hi'
    rw [List.length_map] at hi
    have hpair : (names[i], fields[i]) ∈ names.zip fields :=
      List.mem_iff_getElem.2 ⟨i, by simp; omega, List.getElem_zip⟩
    rw [List.getElem_map, List.getElem_take, value_eq, (h _ _).2 hpair]
    rfl

theorem Row.eq_replicate_of_isBlank {row : Row} (h : row.isBlank = true) :
    row = List.replicate row.length "" := by
  apply List.eq_replicate_of_mem
  intro field hf
  exact String.isEmpty_iff.1 (List.all_eq_true.1 h field hf)

namespace Columns

def listedSubs : List (List String) → List Record → Row
  | [], _ => []
  | group :: groups, subs => group.map (subs.headD ∅).value ++ listedSubs groups subs.tail

/-- The values of a main record and its sub-rows in the order of the columns. -/
def listed (columns : Columns) (parts : RecordParts) : Row :=
  columns.main.map parts.main.value ++ listedSubs columns.groups parts.subs

theorem listedSubs_of_blank {dropped : List (List String × Row)}
    (hlength : ∀ piece ∈ dropped, piece.1.length = piece.2.length)
    (hblank : ∀ piece ∈ dropped, Row.isBlank piece.2 = true) :
    listedSubs (dropped.map Prod.fst) [] = (dropped.map Prod.snd).flatten := by
  induction dropped with
  | nil => rfl
  | cons piece dropped ih =>
      obtain ⟨hpiece, hdropped⟩ := List.forall_mem_cons.1 hlength
      obtain ⟨hempty, hempties⟩ := List.forall_mem_cons.1 hblank
      have hvalues : piece.1.map (Record.value ∅) = piece.2 := by
        rw [Row.eq_replicate_of_isBlank hempty, ← hpiece, List.eq_replicate_iff]
        simp
      simp only [List.map_cons, listedSubs, List.headD_nil, List.tail_nil, List.flatten_cons,
        hvalues, ih hdropped hempties]

theorem listedSubs_of_pairs {kept dropped : List (List String × Row)} {subs : List Record}
    (hkept : List.Forall₂ (fun piece sub => sub.Pairs piece.1 piece.2) kept subs)
    (hlength : ∀ piece ∈ kept ++ dropped, piece.1.length = piece.2.length)
    (hblank : ∀ piece ∈ dropped, Row.isBlank piece.2 = true) :
    listedSubs ((kept ++ dropped).map Prod.fst) subs =
      ((kept ++ dropped).map Prod.snd).flatten := by
  induction hkept with
  | nil => exact listedSubs_of_blank hlength hblank
  | @cons piece sub kept subs hsub _ ih =>
      obtain ⟨hpiece, hrest⟩ := List.forall_mem_cons.1 hlength
      have hvalues : piece.1.map sub.value = piece.2 := by
        rw [hsub.map_value hpiece.le, hpiece, List.take_length]
      simp only [List.cons_append, List.map_cons, listedSubs, List.headD_cons, List.tail_cons,
        List.flatten_cons, hvalues, ih hrest]

/-- Whether a row has a field that is not empty in one of the columns of a group. -/
def StatesGroup (columns : Columns) (row : Row) (i : Nat) : Prop :=
  ∃ k field, Holds 0 (columns.main :: columns.groups) (i + 1) k ∧ row[k]? = some field ∧ field ≠ ""

theorem isBlank_piece_iff {groups : List (List String)} {row : Row} {start i : Nat}
    {piece : List String × Row}
    (h : (groups.zip ((groups.map List.length).splitLengths (row.drop start)))[i]? = some piece) :
    Row.isBlank piece.2 = false ↔
      ∃ k field, Holds start groups i k ∧ row[k]? = some field ∧ field ≠ "" := by
  induction groups generalizing start i with
  | nil => simp at h
  | cons group groups ih =>
      rw [List.map_cons, List.splitLengths_cons, List.zip_cons_cons, List.drop_drop] at h
      cases i with
      | succ i => simpa only [holds_succ] using ih h
      | zero =>
          obtain rfl : (group, (row.drop start).take group.length) = piece := by simpa using h
          simp only [Row.isBlank, List.all_eq_false, holds_zero, List.mem_iff_getElem?,
            List.getElem?_take, List.getElem?_drop]
          constructor
          · rintro ⟨field, ⟨n, hn⟩, hfield⟩
            split at hn
            · rename_i hlt
              exact ⟨start + n, field, by omega, hn, by simpa using hfield⟩
            · cases hn
          · rintro ⟨k, field, ⟨hstart, hk⟩, hfield, hne⟩
            refine ⟨field, ⟨k - start, ?_⟩, by simpa using hne⟩
            rw [if_pos (by omega), Nat.add_sub_cancel' hstart, hfield]

theorem statesGroup_iff {columns : Columns} {row : Row} {i : Nat} :
    columns.StatesGroup row i ↔
      ∃ piece, (columns.pieces row)[i]? = some piece ∧ Row.isBlank piece.2 = false := by
  simp only [StatesGroup, holds_succ, Nat.zero_add]
  constructor
  · rintro ⟨k, field, hholds, hfield⟩
    have ⟨_, _, hgroup, _⟩ := hholds
    have hi : i < (columns.pieces row).length := by
      simpa [pieces] using (List.getElem?_eq_some_iff.1 hgroup).1
    have hpiece := List.getElem?_eq_getElem hi
    exact ⟨_, hpiece, (isBlank_piece_iff hpiece).2 ⟨k, field, hholds, hfield⟩⟩
  · rintro ⟨piece, hpiece, hfull⟩
    exact (isBlank_piece_iff hpiece).1 hfull

theorem map_fst_pieces (columns : Columns) (row : Row) :
    (columns.pieces row).map Prod.fst = columns.groups := by
  rw [pieces, List.map_fst_zip (by simp)]

theorem map_snd_pieces (columns : Columns) (row : Row) : (columns.pieces row).map Prod.snd =
    (columns.groups.map List.length).splitLengths (row.drop columns.main.length) := by
  rw [pieces, List.map_snd_zip (by simp)]

section Whole

variable {columns : Columns} {row : Row} (hrow : row.length = columns.size)

include hrow

theorem length_drop_main :
    (row.drop columns.main.length).length = (columns.groups.map List.length).sum := by
  rw [List.length_drop, hrow, size, names, List.length_append, Nat.add_sub_cancel_left,
    List.length_flatten]

theorem length_of_mem_pieces : ∀ piece ∈ columns.pieces row, piece.1.length = piece.2.length := by
  rw [← List.map_inj_left]
  have hlengths := List.map_splitLengths_length (row.drop columns.main.length)
    (columns.groups.map List.length) (length_drop_main hrow).ge
  rw [← map_snd_pieces, ← map_fst_pieces columns row, List.map_map, List.map_map] at hlengths
  exact hlengths.symm

theorem Pairs.listed {parts : RecordParts} (h : columns.Pairs row parts) :
    columns.listed parts = row := by
  let blank (piece : List String × Row) : Bool := piece.2.all (·.isEmpty)
  have hsplit : (columns.pieces row).rdropWhile blank ++ (columns.pieces row).rtakeWhile blank =
      columns.pieces row := List.rdropWhile_append_rtakeWhile
  have hsubs : listedSubs columns.groups parts.subs = row.drop columns.main.length := by
    have hlisted := listedSubs_of_pairs h.subs (hsplit ▸ length_of_mem_pieces hrow)
      fun piece hpiece => List.mem_rtakeWhile_imp (p := blank) hpiece
    rwa [hsplit, map_fst_pieces, map_snd_pieces,
      List.flatten_splitLengths _ _ (length_drop_main hrow).le] at hlisted
  have hmain : columns.main.length ≤ row.length := by simp [hrow, size, names]
  rw [Columns.listed, h.main.map_value hmain, hsubs, List.take_append_drop]

end Whole

theorem Pairs.count_subs {columns : Columns} {row : Row} {parts : RecordParts}
    (h : columns.Pairs row parts) :
    match parts.subs.length with
    | 0 => ∀ i, ¬columns.StatesGroup row i
    | i + 1 => columns.StatesGroup row i ∧ ∀ j, i < j → ¬columns.StatesGroup row j := by
  simp only [statesGroup_iff, ← h.subs.length_eq]
  exact List.length_rdropWhile_spec _ _

theorem statesGroup_padded {columns : Columns} {row : Row} {i : Nat} :
    columns.StatesGroup (columns.padded row) i ↔ columns.StatesGroup row i := by
  refine exists_congr fun k => exists_congr fun field => and_congr_right fun _ => ?_
  exact and_congr_left getElem?_padded_iff

/-- A row is refused just if it has more fields than there are columns, or fewer where all are
asked for. The records of any other one show its fields again in the order of the columns, each
under the name of its column, with empty ones for those that it is short of. There are sub-rows
up to the last group that has a field which is not empty. -/
theorem listed_assign {header : List String} {columns : Columns}
    (hcolumns : ofHeader header = .ok columns) (width : RowWidth) (row : Row) :
    (∀ fault, columns.assign width row = .error fault ↔
      (columns.size < row.length ∨ width = .exact ∧ row.length < columns.size) ∧
        fault = .fieldCount row.length columns.size) ∧
    (∀ parts, columns.assign width row = .ok parts →
      columns.listed parts = columns.padded row ∧ columns.Pairs (columns.padded row) parts ∧
        match parts.subs.length with
        | 0 => ∀ i, ¬columns.StatesGroup row i
        | i + 1 => columns.StatesGroup row i ∧ ∀ j, i < j → ¬columns.StatesGroup row j) ∧
    (row.length ≤ columns.size →
      columns.assign .shortAllowed row = columns.assign .exact (columns.padded row)) := by
  refine ⟨fun fault => assign_eq_error_iff, fun parts hassign => ?_, fun hrow => ?_⟩
  · have haccepts : columns.accepts width row.length = true := by
      by_contra hrefused
      rw [assign, if_neg hrefused] at hassign
      cases hassign
    have hlength := length_padded (accepts_iff.1 haccepts).1
    obtain ⟨dealt, hdealt, hpairs⟩ :=
      (wellFormed_of_ofHeader hcolumns).assign .exact hlength
    rw [assign_padded haccepts, hdealt] at hassign
    cases hassign
    refine ⟨hpairs.listed hlength, hpairs, ?_⟩
    simpa only [statesGroup_padded] using hpairs.count_subs
  · exact assign_padded (accepts_iff.2 ⟨hrow, by simp⟩)

theorem listed_assign_short :
    let header := ["id", "*v", "w", "*v", " * w ", "*v"]
    let columns : Columns := ⟨["id"], [["v", "w"], ["v"], ["w"], ["v"]]⟩
    let row : Row := ["a", "", "", "b"]
    ofHeader header = .ok columns ∧ ∃ parts, columns.assign .shortAllowed row = .ok parts ∧
      columns.listed parts = ["a", "", "", "b", "", ""] ∧ parts.subs.length = 2 ∧
      columns.assign .exact (columns.padded row) = .ok parts ∧
      columns.assign .exact row = .error (.fieldCount 4 6) := by
  intro header columns row
  have hcolumns : ofHeader header = .ok columns := rfl
  obtain ⟨-, hlisted, hpadded⟩ := listed_assign hcolumns .shortAllowed row
  obtain ⟨hrefused, -⟩ := listed_assign hcolumns .exact row
  cases hassign : columns.assign .shortAllowed row with
  | error fault =>
      have hfits : (columns.assign .shortAllowed row).isOk = true := rfl
      rw [hassign] at hfits
      cases hfits
  | ok parts =>
      have hcount : (columns.assign .shortAllowed row).map (·.subs.length) = .ok 2 := by
        decide +kernel
      rw [hassign] at hcount
      exact ⟨hcolumns, parts, rfl, (hlisted parts hassign).1, Except.ok.inj hcount,
        (hpadded (by decide)).symm.trans hassign, (hrefused _).2 ⟨.inr ⟨rfl, by decide⟩, rfl⟩⟩

end Columns

end DefinitionFiles
