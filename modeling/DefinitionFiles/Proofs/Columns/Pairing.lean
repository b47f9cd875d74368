import DefinitionFiles.Proofs.Columns.Dealing
import DefinitionFiles.Proofs.Columns.Header
import DefinitionFiles.Proofs.Lists
import Mathlib.Data.List.SplitLengths

namespace DefinitionFiles

namespace Record

def Pairs (record : Record) (names : List String) (fields : Row) : Prop :=
  ∀ name field, record[name]? = some field ↔ (name, field) ∈ names.zip fields

theorem pairUp_eq_zip {names : List String} {fields : Row} (h : names.length ≤ fields.length) :
    pairUp names fields = names.zip fields := by
  induction names generalizing fields with
  | nil => rfl
  | cons name names ih =>
      cases fields with
      | nil => simp at h
      | cons field fields => simp [pairUp, ih (Nat.le_of_succ_le_succ h)]

theorem pairs_ofFields {names : List String} {fields : Row} (hnames : names.Nodup)
    (hlength : names.length ≤ fields.length) : (ofFields names fields).Pairs names fields := by
  intro name field
  have hdistinct : (names.zip fields).Pairwise (fun a b => ¬compare a.1 b.1 = .eq) := by
    rw [← List.map_fst_zip hlength, List.Nodup, List.pairwise_map] at hnames
    exact hnames.imp fun hne he => hne (Std.LawfulEqCmp.eq_of_compare he)
  have hget : ∀ field, (name, field) ∈ names.zip fields →
      (ofFields names fields)[name]? = some field := by
    intro field hf
    rw [ofFields, pairUp_eq_zip hlength]
    exact Std.ExtTreeMap.getElem?_ofList_of_mem Std.ReflCmp.compare_self hdistinct hf
  refine ⟨fun h => ?_, hget field⟩
  obtain ⟨hrecord, -⟩ := Std.ExtTreeMap.getElem?_eq_some_iff.1 h
  have hmem : name ∈ names := mem_ofFields.1 hrecord
  rw [← List.map_fst_zip hlength] at hmem
  obtain ⟨⟨_, found⟩, hfound, rfl⟩ := List.mem_map.1 hmem
  have hf := hget found hfound
  rw [h, Option.some.injEq] at hf
  rwa [hf]

theorem values_eq (record : Record) : record.values = record.toList.map Prod.snd := by
  obtain ⟨⟨entries⟩⟩ := record
  induction entries using Quotient.ind with
  | _ entries =>
      change entries.inner.values =
        (Std.DTreeMap.Internal.Impl.Const.toList entries.inner).map Prod.snd
      rw [Std.DTreeMap.Internal.Impl.values_eq_map_snd,
        Std.DTreeMap.Internal.Impl.Const.toList_eq_toListModel_map, List.map_map]
      rfl

theorem Pairs.isBlank {record : Record} {names : List String} {fields : Row}
    (h : record.Pairs names fields) (hlength : names.length = fields.length) :
    record.isBlank = fields.all (·.isEmpty) := by
  rw [Record.isBlank, values_eq, Bool.eq_iff_iff, List.all_eq_true, List.all_eq_true]
  constructor
  · intro hall field hf
    rw [← List.map_snd_zip hlength.ge] at hf
    obtain ⟨⟨name, _⟩, hmem, rfl⟩ := List.mem_map.1 hf
    refine hall _ (List.mem_map.2 ⟨(name, _), ?_, rfl⟩)
    exact Std.ExtTreeMap.mem_toList_iff_getElem?_eq_some.2 ((h name _).2 hmem)
  · intro hall field hf
    obtain ⟨⟨name, _⟩, hmem, rfl⟩ := List.mem_map.1 hf
    have hg := Std.ExtTreeMap.mem_toList_iff_getElem?_eq_some.1 hmem
    exact hall _ (List.of_mem_zip ((h name _).1 hg)).2

end Record

namespace Columns

def pieces (columns : Columns) (row : Row) : List (List String × Row) :=
  columns.groups.zip ((columns.groups.map List.length).splitLengths (row.drop columns.main.length))

/-- The records that pair each column with its field of a row. At the end there is none for
groups that have empty fields only. -/
structure Pairs (columns : Columns) (row : Row) (parts : RecordParts) : Prop where
  main : parts.main.Pairs columns.main row
  subs : List.Forall₂ (fun piece sub => sub.Pairs piece.1 piece.2)
    ((columns.pieces row).rdropWhile (fun piece => piece.2.all (·.isEmpty))) parts.subs

theorem zip_take_length {names : List String} (fields : Row) :
    names.zip (fields.take names.length) = names.zip fields := by
  induction names generalizing fields with
  | nil => simp
  | cons name names ih => cases fields <;> simp [ih]

theorem forall₂_deal {groups : List (List String)} {fields : Row}
    (hgroups : ∀ group ∈ groups, group.Nodup) (hlength : groups.flatten.length ≤ fields.length) :
    List.Forall₂ (fun piece sub => sub.Pairs piece.1 piece.2 ∧ piece.1.length = piece.2.length)
      (groups.zip ((groups.map List.length).splitLengths fields)) (deal groups fields) := by
  induction groups generalizing fields with
  | nil => exact .nil
  | cons group groups ih =>
      rw [List.flatten_cons, List.length_append] at hlength
      have hg : group.length ≤ fields.length := by omega
      have hpairs := Record.pairs_ofFields (hgroups group List.mem_cons_self) hg
      have hrest : groups.flatten.length ≤ (fields.drop group.length).length := by
        rw [List.length_drop]
        omega
      rw [List.map_cons, List.splitLengths_cons, List.zip_cons_cons]
      refine .cons ⟨fun name field => ?_, by simpa using hg⟩
        (ih (fun other ho => hgroups other (List.mem_cons_of_mem group ho)) hrest)
      rw [zip_take_length]
      exact hpairs name field

theorem WellFormed.assign {columns : Columns} (h : columns.WellFormed) (width : RowWidth)
    {row : Row} (hrow : row.length = columns.size) :
    ∃ parts, columns.assign width row = .ok parts ∧ columns.Pairs row parts := by
  have haccepts : columns.accepts width row.length = true := by cases width <;> simp [accepts, hrow]
  have hsize : columns.size = columns.main.length + columns.groups.flatten.length := by
    simp [size, names]
  have hlength : columns.groups.flatten.length ≤ (row.drop columns.main.length).length := by
    rw [List.length_drop]
    omega
  have hdealt := forall₂_deal (fun group hg => (h.groups group hg).2.nodup) hlength
  refine ⟨_, by rw [Columns.assign, if_pos haccepts], ?_, ?_⟩
  · exact Record.pairs_ofFields h.main.nodup (by omega)
  · have hblank : ∀ (piece : List String × Row) (sub : Record),
        sub.Pairs piece.1 piece.2 ∧ piece.1.length = piece.2.length →
          piece.2.all (·.isEmpty) = sub.isBlank :=
      fun piece sub hp => (hp.1.isBlank hp.2).symm
    -- groups are dropped from the end, so from the front of the reversed lists
    have hkept := List.forall₂_dropWhile hblank (List.forall₂_reverse_iff.2 hdealt)
    exact (List.forall₂_reverse_iff.2 hkept).imp fun piece sub hp => hp.1

end Columns

end DefinitionFiles
