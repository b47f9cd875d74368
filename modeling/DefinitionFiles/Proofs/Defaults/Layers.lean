import DefinitionFiles.Defaults.Table
import DefinitionFiles.Proofs.Columns.Dealing

namespace DefinitionFiles

/-- The first of some values that is not empty, the empty value if there is none. -/
def firstStated (values : List String) : String :=
  (values.find? (fun value => !value.isEmpty)).getD ""

@[simp] theorem firstStated_nil : firstStated [] = "" := rfl

theorem firstStated_cons (value : String) (values : List String) :
    firstStated (value :: values) = if value.isEmpty then firstStated values else value := by
  cases h : value.isEmpty <;> simp [firstStated, h]

theorem firstStated_empty_cons (values : List String) :
    firstStated ("" :: values) = firstStated values := rfl

theorem firstStated_singleton (value : String) : firstStated [value] = value := by
  rw [firstStated_cons]
  split
  · rename_i h
    exact (String.isEmpty_iff.1 h).symm
  · rfl

theorem firstStated_pair_empty (value : String) : firstStated [value, ""] = value := by
  rw [firstStated_cons, firstStated_singleton]
  split
  · rename_i h
    exact (String.isEmpty_iff.1 h).symm
  · rfl

theorem firstStated_firstStated_cons (values more : List String) :
    firstStated (firstStated values :: more) = firstStated (values ++ more) := by
  induction values with
  | nil => rfl
  | cons value values ih =>
      rw [firstStated_cons value, List.cons_append, firstStated_cons value]
      cases h : value.isEmpty
      · simp [firstStated_cons, h]
      · simpa using ih

namespace Record

theorem value_eq (record : Record) (name : String) : record.value name = (record[name]?).getD "" :=
  Std.ExtTreeMap.getD_eq_getD_getElem?

theorem getElem?_of_mem {record : Record} {name : String} (h : name ∈ record) :
    record[name]? = some (record.value name) := by
  rw [value_eq, Std.ExtTreeMap.getElem?_eq_some_getElem h]
  rfl

@[simp] theorem value_empty (name : String) : value ∅ name = "" := by
  simp [value_eq]

theorem getElem?_fill (record defaults : Record) (name : String) :
    (record.fill defaults)[name]? =
      record[name]?.map (fun own => firstStated [own, defaults.value name]) := by
  rw [fill, Std.ExtTreeMap.getElem?_map]
  congr 1
  funext own
  rw [firstStated_cons, firstStated_singleton]
  split
  · rename_i h
    rw [String.isEmpty_iff.1 h]
    rfl
  · rfl

@[simp] theorem fill_empty (record : Record) : record.fill ∅ = record := by
  apply Std.ExtTreeMap.ext_getElem?
  intro name
  simp [getElem?_fill, firstStated_pair_empty]

theorem getElem?_withoutEmpty (record : Record) (name : String) :
    record.withoutEmpty[name]? = record[name]?.filter (fun own => !own.isEmpty) :=
  Std.ExtTreeMap.getElem?_filter'

@[simp] theorem withoutEmpty_empty : withoutEmpty ∅ = ∅ := by
  apply Std.ExtTreeMap.ext_getElem?
  intro name
  simp [getElem?_withoutEmpty]

theorem value_withoutEmpty (record : Record) (name : String) :
    record.withoutEmpty.value name = record.value name := by
  rw [value_eq, value_eq, getElem?_withoutEmpty]
  cases h : record[name]? with
  | none => rfl
  | some own =>
      cases ho : own.isEmpty
      · simp [Option.filter, ho]
      · simp [Option.filter, String.isEmpty_iff.1 ho]

def Full (record : Record) : Prop :=
  ∀ (name own : String), record[name]? = some own → own.isEmpty = false

theorem full_withoutEmpty (record : Record) : record.withoutEmpty.Full := by
  intro name own h
  rw [getElem?_withoutEmpty, Option.filter_eq_some_iff] at h
  simpa using h.2

theorem getElem?_overlay (record above : Record) (name : String) :
    (record.overlay above)[name]? = above[name]?.or record[name]? :=
  Std.ExtTreeMap.getElem?_union

@[simp] theorem mem_overlay {record above : Record} {name : String} :
    name ∈ record.overlay above ↔ name ∈ record ∨ name ∈ above := Std.ExtTreeMap.mem_union_iff

@[simp] theorem overlay_empty (record : Record) : record.overlay ∅ = record := by
  apply Std.ExtTreeMap.ext_getElem?
  intro name
  simp [getElem?_overlay]

@[simp] theorem empty_overlay (record : Record) : overlay ∅ record = record := by
  apply Std.ExtTreeMap.ext_getElem?
  intro name
  simp [getElem?_overlay]

theorem value_overlay (record : Record) {above : Record} (habove : above.Full) (name : String) :
    (record.overlay above).value name = firstStated [above.value name, record.value name] := by
  rw [value_eq, value_eq, value_eq, getElem?_overlay]
  cases h : above[name]? with
  | none => simp [firstStated_empty_cons, firstStated_singleton]
  | some own => simp [firstStated_cons, habove name own h]

end Record

namespace Defaults

theorem overlaySubs_nil (subs : List Record) : overlaySubs subs [] = subs := by
  cases subs <;> rfl

theorem getD_overlaySubs (subs above : List Record) (i : Nat) :
    (overlaySubs subs above).getD i ∅ = (subs.getD i ∅).overlay (above.getD i ∅) := by
  induction above generalizing subs i with
  | nil => simp [overlaySubs_nil]
  | cons top above ih =>
      cases subs with
      | nil => simp [overlaySubs]
      | cons sub subs =>
          cases i with
          | zero => rfl
          | succ i => simpa [overlaySubs] using ih subs i

theorem length_overlaySubs (subs above : List Record) :
    (overlaySubs subs above).length = max subs.length above.length := by
  induction above generalizing subs with
  | nil => simp [overlaySubs_nil]
  | cons top above ih =>
      cases subs with
      | nil => simp [overlaySubs]
      | cons sub subs =>
          simp only [overlaySubs, List.length_cons, ih]
          omega

theorem length_fillSubs (defaults subs : List Record) :
    (fillSubs defaults subs).length = subs.length := by
  induction defaults generalizing subs with
  | nil => rfl
  | cons sub defaults ih => cases subs <;> simp [fillSubs, ih]

theorem getElem?_fillSubs (defaults subs : List Record) (i : Nat) :
    (fillSubs defaults subs)[i]? = subs[i]?.map (·.fill (defaults.getD i ∅)) := by
  induction defaults generalizing subs i with
  | nil => simp [fillSubs]
  | cons sub defaults ih =>
      cases subs with
      | nil => simp [fillSubs]
      | cons own subs =>
          cases i with
          | zero => simp [fillSubs]
          | succ i => simpa [fillSubs] using ih subs i

end Defaults

def RecordParts.part (parts : RecordParts) : Option Nat → Record
  | none => parts.main
  | some i => parts.subs.getD i ∅

namespace Defaults

def part (defaults : Defaults) : Option Nat → Record
  | none => defaults.base
  | some i => defaults.subs.getD i ∅

theorem part_merge (defaults above : Defaults) (place : Option Nat) :
    (defaults.merge above).part place = (defaults.part place).overlay (above.part place) := by
  cases place with
  | none => rfl
  | some i => exact getD_overlaySubs defaults.subs above.subs i

theorem part_stated (parts : RecordParts) (place : Option Nat) :
    (stated parts.main parts.subs).part place = (parts.part place).withoutEmpty := by
  cases place with
  | none => rfl
  | some i =>
      have h := getD_dropBlankEnd (·.isEmpty) (fun _ => Std.ExtTreeMap.isEmpty_iff.1)
        (parts.subs.map Record.withoutEmpty) i
      simp only [stated, part, RecordParts.part, h]
      simp only [List.getD_eq_getElem?_getD, List.getElem?_map]
      cases parts.subs[i]? <;> simp

/-- Whether every place and name that an entry holds a value for is held by another one too. -/
def Within (defaults later : Defaults) : Prop :=
  defaults.subs.length ≤ later.subs.length ∧
    ∀ place, ∀ name ∈ defaults.part place, name ∈ later.part place

theorem Within.refl (defaults : Defaults) : defaults.Within defaults :=
  ⟨Nat.le_refl _, fun _ _ h => h⟩

theorem Within.trans {first second third : Defaults} (h : first.Within second)
    (h' : second.Within third) : first.Within third :=
  ⟨Nat.le_trans h.1 h'.1, fun place name hn => h'.2 place name (h.2 place name hn)⟩

theorem within_merge (defaults above : Defaults) : defaults.Within (defaults.merge above) := by
  constructor
  · simp only [merge, length_overlaySubs]
    omega
  · intro place name hn
    rw [part_merge, Record.mem_overlay]
    exact .inl hn

end Defaults

namespace DefaultsTable

theorem get?_merge (table : DefaultsTable) (category other : String) (entry : Defaults) :
    (table.merge category entry).get? other =
      if category = other then some (table.merged category entry) else table.get? other := by
  simp only [merge, insert, get?, Std.ExtTreeMap.getElem?_insert, Std.LawfulEqCmp.compare_eq_iff_eq]

def Within (table later : DefaultsTable) : Prop :=
  ∀ category entry, table.get? category = some entry →
    ∃ entry', later.get? category = some entry' ∧ entry.Within entry'

theorem Within.refl (table : DefaultsTable) : table.Within table :=
  fun _ entry h => ⟨entry, h, .refl entry⟩

theorem Within.trans {first second third : DefaultsTable} (h : first.Within second)
    (h' : second.Within third) : first.Within third := by
  intro category entry he
  obtain ⟨entry', he', hw⟩ := h category entry he
  obtain ⟨entry'', he'', hw'⟩ := h' category entry' he'
  exact ⟨entry'', he'', hw.trans hw'⟩

theorem within_merge (table : DefaultsTable) (category : String) (entry : Defaults) :
    table.Within (table.merge category entry) := by
  intro other held hh
  rw [get?_merge]
  split
  · rename_i h
    subst h
    refine ⟨_, rfl, ?_⟩
    simp only [merged, hh, Option.getD_some]
    exact held.within_merge entry
  · exact ⟨held, hh, .refl held⟩

end DefaultsTable

end DefinitionFiles
