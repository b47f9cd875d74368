import DefinitionFiles.Proofs.Defaults.Merging
import Mathlib

namespace DefinitionFiles

namespace Record

variable {record defaults : Record}

theorem getElem?_fill_of_ne_empty {name own : String} (h : record[name]? = some own)
    (hown : own ≠ "") (defaults : Record) : (record.fill defaults)[name]? = some own := by
  rw [getElem?_fill, h, Option.map_some, firstStated_cons, if_neg (by simpa using hown)]

theorem getElem?_fill_of_empty {name : String} (h : record[name]? = some "") (defaults : Record) :
    (record.fill defaults)[name]? = some (defaults.value name) := by
  rw [getElem?_fill, h, Option.map_some, firstStated_empty_cons, firstStated_singleton]

@[simp] theorem mem_fill {name : String} : name ∈ record.fill defaults ↔ name ∈ record :=
  Std.ExtTreeMap.mem_map

@[simp] theorem empty_fill (defaults : Record) : fill ∅ defaults = ∅ := by
  apply Std.ExtTreeMap.ext_getElem?
  intro name
  rw [getElem?_fill, Std.ExtTreeMap.getElem?_empty, Option.map_none]

@[simp] theorem fillCount_empty (record : Record) : record.fillCount ∅ = 0 := by
  simp [fillCount]

theorem firstStated_pair_firstStated (own upper lower : String) :
    firstStated [own, firstStated [upper, lower]] =
      firstStated [firstStated [own, upper], lower] := by
  rw [firstStated_firstStated_cons, firstStated_cons own, firstStated_singleton]
  exact (firstStated_cons own [upper, lower]).symm

theorem fill_overlay (record lower : Record) {upper : Record} (hupper : upper.Full) :
    record.fill (lower.overlay upper) = (record.fill upper).fill lower := by
  apply Std.ExtTreeMap.ext_getElem?
  intro name
  simp only [getElem?_fill, Option.map_map, value_overlay lower hupper]
  congr 1
  funext own
  exact firstStated_pair_firstStated _ _ _

theorem isEmpty_filled {upper : Record} (hupper : upper.Full) (name own : String) :
    (if own.isEmpty then upper.getD name own else own).isEmpty =
      (own.isEmpty && !upper.contains name) := by
  cases hown : own.isEmpty with
  | false => simp [hown]
  | true =>
      rw [if_pos rfl, Std.ExtTreeMap.getD_eq_getD_getElem?,
        Std.ExtTreeMap.contains_eq_isSome_getElem?]
      cases hvalue : upper[name]? with
      | none => simpa using hown
      | some value => simpa using hupper name value hvalue

/-- A slot that is filled from the upper layer is not open for the lower one any more. -/
theorem fillCount_overlay (record lower : Record) {upper : Record} (hupper : upper.Full) :
    record.fillCount (lower.overlay upper) =
      record.fillCount upper + (record.fill upper).fillCount lower := by
  have hlater : (record.fill upper).fillCount lower = record.toList.countP fun entry =>
      entry.2.isEmpty && !upper.contains entry.1 && lower.contains entry.1 := by
    rw [fillCount, fill, Std.ExtTreeMap.toList_map, List.countP_map]
    refine List.countP_congr fun entry _ => ?_
    simp only [Function.comp_apply, isEmpty_filled hupper]
  rw [hlater, fillCount, fillCount,
    List.countP_eq_countP_filter_add _ _ (fun entry => upper.contains entry.1),
    List.countP_filter, List.countP_filter]
  congr 1 <;> refine List.countP_congr fun entry _ => ?_
  all_goals simp only [overlay, Std.ExtTreeMap.contains_union]
  · cases upper.contains entry.1 <;> simp
  · cases upper.contains entry.1 <;> simp

def openNames (record defaults : Record) : Finset String :=
  ((record.toList.filter fun entry => entry.2.isEmpty && defaults.contains entry.1).map
    Prod.fst).toFinset

theorem mem_openNames {name : String} :
    name ∈ record.openNames defaults ↔ record[name]? = some "" ∧ name ∈ defaults := by
  simp only [openNames, List.mem_toFinset, List.mem_map, List.mem_filter, Bool.and_eq_true,
    String.isEmpty_iff, Std.ExtTreeMap.contains_iff_mem]
  constructor
  · rintro ⟨⟨_, _⟩, ⟨hentry, rfl, hdefault⟩, rfl⟩
    exact ⟨Std.ExtTreeMap.mem_toList_iff_getElem?_eq_some.1 hentry, hdefault⟩
  · rintro ⟨hvalue, hdefault⟩
    exact ⟨(name, ""), ⟨Std.ExtTreeMap.mem_toList_iff_getElem?_eq_some.2 hvalue, rfl, hdefault⟩, rfl⟩

theorem card_openNames (record defaults : Record) :
    (record.openNames defaults).card = record.fillCount defaults := by
  have hdistinct : (record.toList.map Prod.fst).Nodup := by
    refine List.pairwise_map.2 (Std.ExtTreeMap.distinct_keys_toList.imp fun hne he => hne ?_)
    rw [he]
    exact Std.ReflCmp.compare_self
  rw [openNames, List.toFinset_card_of_nodup (hdistinct.sublist (List.filter_sublist.map _)),
    List.length_map, fillCount, List.countP_eq_length_filter]

end Record

def Filled.parts (filled : Filled) : RecordParts := ⟨filled.main, filled.subs⟩

namespace RecordParts

theorem ext_part {parts other : RecordParts} (hlength : parts.subs.length = other.subs.length)
    (h : ∀ place, parts.part place = other.part place) : parts = other := by
  obtain ⟨main, subs⟩ := parts
  obtain ⟨main', subs'⟩ := other
  obtain rfl : main = main' := h none
  congr 1
  apply List.ext_getElem hlength
  intro i hi hi'
  simpa [part, hi, hi'] using h (some i)

def places (parts : RecordParts) : Finset (Option Nat) :=
  (Finset.range parts.subs.length).insertNone

end RecordParts

namespace Defaults

def Full (defaults : Defaults) : Prop := ∀ place, (defaults.part place).Full

theorem Full.merge {lower upper : Defaults} (hlower : lower.Full) (hupper : upper.Full) :
    (lower.merge upper).Full := by
  intro place name own h
  rw [part_merge, Record.getElem?_overlay, Option.or_eq_some_iff] at h
  rcases h with h | ⟨-, h⟩
  · exact hupper place name own h
  · exact hlower place name own h

theorem full_stated (parts : RecordParts) : (stated parts.main parts.subs).Full := by
  intro place
  rw [part_stated]
  exact Record.full_withoutEmpty _

theorem full_empty : Full {} := by
  intro place name own h
  cases place <;> simp [part] at h

variable (defaults : Defaults) (parts : RecordParts)

theorem part_fill (place : Option Nat) :
    (defaults.fill parts.main parts.subs).parts.part place =
      (parts.part place).fill (defaults.part place) := by
  cases place with
  | none => rfl
  | some i =>
      simp only [Filled.parts, fill, RecordParts.part, part, List.getD_eq_getElem?_getD,
        getElem?_fillSubs]
      cases parts.subs[i]? <;> simp

theorem length_subs_fill :
    (defaults.fill parts.main parts.subs).parts.subs.length = parts.subs.length :=
  length_fillSubs defaults.subs parts.subs

theorem places_fill : (defaults.fill parts.main parts.subs).parts.places = parts.places := by
  rw [RecordParts.places, length_subs_fill, RecordParts.places]

theorem fillSubsCount_eq_sum (defaults subs : List Record) :
    fillSubsCount defaults subs =
      ∑ i ∈ Finset.range subs.length, (subs.getD i ∅).fillCount (defaults.getD i ∅) := by
  induction defaults generalizing subs with
  | nil => simp [fillSubsCount]
  | cons sub defaults ih =>
      cases subs with
      | nil => rfl
      | cons own subs =>
          rw [fillSubsCount, ih, List.length_cons, Finset.sum_range_succ', Nat.add_comm]
          rfl

theorem count_fill : (defaults.fill parts.main parts.subs).count =
    ∑ place ∈ parts.places, (parts.part place).fillCount (defaults.part place) := by
  rw [RecordParts.places, Finset.sum_insertNone, fill, fillSubsCount_eq_sum]
  rfl

theorem exists_openSlots : ∃ slots : Finset (Option Nat × String),
    slots.card = (defaults.fill parts.main parts.subs).count ∧
      ∀ place name, (place, name) ∈ slots ↔
        (parts.part place)[name]? = some "" ∧ name ∈ defaults.part place := by
  let openAt (place : Option Nat) := (parts.part place).openNames (defaults.part place)
  refine ⟨(parts.places.sigma openAt).map (Equiv.sigmaEquivProd _ _).toEmbedding, ?_, ?_⟩
  · rw [Finset.card_map, Finset.card_sigma, count_fill]
    exact Finset.sum_congr rfl fun place _ => Record.card_openNames _ _
  · intro place name
    rw [Finset.mem_map_equiv, Finset.mem_sigma, ← Record.mem_openNames]
    refine and_iff_right_of_imp fun hopen => ?_
    -- a record that has the name is there
    have hmem := (Record.mem_openNames.1 hopen).1
    cases place with
    | none => simp [RecordParts.places]
    | some i =>
        by_contra hout
        have hi : parts.subs[i]? = none := by simpa [RecordParts.places] using hout
        simp [RecordParts.part, hi] at hmem

theorem fill_merge (lower : Defaults) {upper : Defaults} (hupper : upper.Full) (parts : RecordParts) :
    let first := (upper.fill parts.main parts.subs).parts
    ((lower.merge upper).fill parts.main parts.subs).parts =
      (lower.fill first.main first.subs).parts := by
  intro first
  apply RecordParts.ext_part
  · simp only [length_subs_fill, first]
  · intro place
    rw [part_fill, part_fill, part_fill, part_merge]
    exact Record.fill_overlay _ _ (hupper place)

theorem count_fill_merge (lower : Defaults) {upper : Defaults} (hupper : upper.Full)
    (parts : RecordParts) :
    let first := upper.fill parts.main parts.subs
    ((lower.merge upper).fill parts.main parts.subs).count =
      first.count + (lower.fill first.parts.main first.parts.subs).count := by
  intro first
  rw [count_fill, count_fill, count_fill, places_fill, ← Finset.sum_add_distrib]
  refine Finset.sum_congr rfl fun place _ => ?_
  rw [part_fill, part_merge]
  exact Record.fillCount_overlay _ _ (hupper place)

theorem getElem?_fillSubs_of_length_le (defaults subs : List Record) {i : Nat}
    (h : defaults.length ≤ i) : (fillSubs defaults subs)[i]? = subs[i]? := by
  rw [getElem?_fillSubs, List.getD_eq_getElem?_getD, List.getElem?_eq_none h]
  simp

end Defaults

end DefinitionFiles
