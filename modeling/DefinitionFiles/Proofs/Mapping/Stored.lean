import DefinitionFiles.Proofs.Columns.Runs
import DefinitionFiles.Proofs.Lists
import DefinitionFiles.Proofs.Mapping.FillingLayers
import DefinitionFiles.Proofs.Mapping.Shape

namespace DefinitionFiles

namespace Record

theorem getElem?_of_value {record : Record} {name value : String} (h : record.value name = value)
    (hne : value ≠ "") : record[name]? = some value := by
  rw [value_eq] at h
  cases hr : record[name]? with
  | none => exact absurd (by simpa [hr] using h.symm) hne
  | some own => simpa [hr] using h

theorem getElem?_of_insertMany {record : Record} {entries : List (String × String)}
    {name value : String} (h : (Std.ExtTreeMap.insertMany record entries)[name]? = some value) :
    record[name]? = some value ∨ (name, value) ∈ entries := by
  induction entries generalizing record with
  | nil => exact .inl (by simpa using h)
  | cons entry entries ih =>
      obtain ⟨other, stated⟩ := entry
      rw [Std.ExtTreeMap.insertMany_cons] at h
      -- the value is of a later entry, or is that of this one, or was there before
      obtain hinserted | hlater := ih h
      · rw [Std.ExtTreeMap.getElem?_insert] at hinserted
        split at hinserted
        · rename_i hsame
          obtain rfl : other = name := Std.LawfulEqCmp.eq_of_compare hsame
          obtain rfl : stated = value := Option.some.inj hinserted
          exact .inr List.mem_cons_self
        · exact .inl hinserted
      · exact .inr (List.mem_cons_of_mem _ hlater)

theorem exists_field_of_mem_pairUp {names : List String} {fields : Row} {name value : String}
    (h : (name, value) ∈ pairUp names fields) (hne : value ≠ "") :
    ∃ k : Nat, names[k]? = some name ∧ fields[k]? = some value := by
  induction names generalizing fields with
  | nil => cases h
  | cons first names ih =>
      rcases List.mem_cons.1 h with hfirst | hlater
      · obtain ⟨rfl, hvalue⟩ := Prod.mk.inj hfirst
        cases fields with
        | nil => exact absurd hvalue hne
        | cons field fields => exact ⟨0, rfl, by rw [hvalue]; rfl⟩
      · obtain ⟨k, hname, hfield⟩ := ih hlater
        exact ⟨k + 1, hname, by rwa [List.getElem?_tail] at hfield⟩

theorem exists_field_of_ofFields {names : List String} {fields : Row} {name value : String}
    (h : (ofFields names fields)[name]? = some value) (hne : value ≠ "") :
    ∃ k : Nat, names[k]? = some name ∧ fields[k]? = some value := by
  rw [ofFields, Std.ExtTreeMap.ofList_eq_insertMany_empty] at h
  obtain hnone | hmem := getElem?_of_insertMany h
  · simp at hnone
  · exact exists_field_of_mem_pairUp hmem hne

end Record

namespace Columns

/-- Whether a row has this value in a column of this name, at the place that defaults keep it for:
among the main columns, or in the group with the position of a sub-row. -/
def StatesAt (columns : Columns) (row : Row) (place : Option Nat) (name value : String) : Prop :=
  ∃ k, Holds 0 (columns.main :: columns.groups) (place.elim 0 (· + 1)) k ∧
    columns.names[k]? = some name ∧ row[k]? = some value

theorem exists_field_of_deal {groups : List (List String)} {fields : Row} (start : Nat) {i : Nat}
    {record : Record} {name value : String} (hrecord : (deal groups fields)[i]? = some record)
    (h : record[name]? = some value) (hne : value ≠ "") :
    ∃ k, Holds start groups i (start + k) ∧ groups.flatten[k]? = some name ∧
      fields[k]? = some value := by
  induction groups generalizing fields start i with
  | nil => simp [deal] at hrecord
  | cons group groups ih =>
      cases i with
      | zero =>
          obtain rfl : Record.ofFields group fields = record := Option.some.inj hrecord
          obtain ⟨k, hname, hfield⟩ := Record.exists_field_of_ofFields h hne
          have hk : k < group.length := (List.getElem?_eq_some_iff.1 hname).1
          refine ⟨k, holds_zero.2 ⟨Nat.le_add_right _ _, Nat.add_lt_add_left hk start⟩, ?_, hfield⟩
          rwa [List.flatten_cons, List.getElem?_append_left hk]
      | succ i =>
          obtain ⟨k, hholds, hname, hfield⟩ := ih (start + group.length) hrecord
          refine ⟨group.length + k, holds_succ.2 (by rwa [← Nat.add_assoc]), ?_, ?_⟩
          · rw [List.flatten_cons, List.getElem?_append_right (Nat.le_add_right _ _),
              Nat.add_sub_cancel_left, hname]
          · rwa [List.getElem?_drop] at hfield

theorem statesAt_of_deal {columns : Columns} {row : Row} {place : Option Nat} {record : Record}
    {name value : String}
    (hrecord : (deal (columns.main :: columns.groups) row)[place.elim 0 (· + 1)]? = some record)
    (h : record[name]? = some value) (hne : value ≠ "") : columns.StatesAt row place name value := by
  obtain ⟨k, hholds, hname, hfield⟩ := exists_field_of_deal 0 hrecord h hne
  rw [Nat.zero_add] at hholds
  exact ⟨k, hholds, hname, hfield⟩

theorem statesAt_of_assign {columns : Columns} {width : RowWidth} {row : Row} {parts : RecordParts}
    (hassign : columns.assign width row = .ok parts) {place : Option Nat} {name value : String}
    (h : (parts.part place).value name = value) (hne : value ≠ "") :
    columns.StatesAt row place name value := by
  rw [assign] at hassign
  split at hassign
  · cases hassign
    cases place with
    | none => exact statesAt_of_deal rfl (Record.getElem?_of_value h hne) hne
    | some i =>
        rw [RecordParts.part, List.getD_eq_getElem?_getD] at h
        cases hsub : (dropBlankEnd Record.isBlank
            (deal columns.groups (row.drop columns.main.length)))[i]? with
        | none => exact absurd (by simpa [hsub] using h.symm) hne
        | some sub =>
            rw [hsub, Option.getD_some] at h
            have hdealt : (deal columns.groups (row.drop columns.main.length))[i]? = some sub :=
              getElem?_of_dropBlankEnd hsub
            exact statesAt_of_deal hdealt (Record.getElem?_of_value h hne) hne
  · cases hassign

theorem StatesAt.group_lt {columns : Columns} {row : Row} {i : Nat} {name value : String}
    (h : columns.StatesAt row (some i) name value) : i < columns.groups.length := by
  obtain ⟨k, ⟨group, first, hgroup, -⟩, -⟩ := h
  rw [Option.elim_some, List.getElem?_cons_succ] at hgroup
  exact (List.getElem?_eq_some_iff.1 hgroup).1

end Columns

theorem Arrival.statesAt_parts {η : Type} {row : Arrival η} {config : MappingConfig}
    {place : Option Nat} {name value : String}
    (h : ((row.parts config).part place).value name = value) (hne : value ≠ "") :
    row.columns.StatesAt row.fields place name value := by
  simp only [parts] at h
  split at h
  · rename_i hassigned
    exact Columns.statesAt_of_assign hassigned h hne
  · exact absurd (by cases place <;> simpa [RecordParts.part] using h.symm) hne

theorem Record.exists_of_ne_empty {record : Record} (h : record ≠ ∅) :
    ∃ name value : String, record[name]? = some value := by
  by_contra hnone
  refine h (Std.ExtTreeMap.ext_getElem? fun name => ?_)
  cases hr : record[name]? with
  | none => simp
  | some value => exact absurd ⟨name, value, hr⟩ hnone

theorem Record.overlay_ne_empty (record : Record) {above : Record} (h : above ≠ ∅) :
    record.overlay above ≠ ∅ := by
  intro he
  obtain ⟨name, value, hvalue⟩ := exists_of_ne_empty h
  have hname := record.getElem?_overlay above name
  simp [he, hvalue] at hname

namespace Defaults

/-- An entry without empty values, whose sub-rows end with one that holds something. -/
structure Tidy (entry : Defaults) : Prop where
  full : entry.Full
  last : ∀ last ∈ entry.subs.getLast?, last ≠ ∅

theorem tidy_empty : Tidy {} := ⟨full_empty, by simp⟩

theorem last_overlaySubs {subs above : List Record} (h : ∀ last ∈ subs.getLast?, last ≠ ∅)
    (habove : ∀ last ∈ above.getLast?, last ≠ ∅) :
    ∀ last ∈ (overlaySubs subs above).getLast?, last ≠ ∅ := by
  induction subs generalizing above with
  | nil => cases above <;> exact habove
  | cons sub subs ih =>
      cases above with
      | nil => exact h
      | cons top above =>
          obtain ⟨-, hsubs⟩ := List.forall_getLast?_cons.1 h
          obtain ⟨htop, hrest⟩ := List.forall_getLast?_cons.1 habove
          refine List.forall_getLast?_cons.2 ⟨fun hends => ?_, ih hsubs hrest⟩
          -- both lists end here, so the last record of the upper one is on top
          have hlength := congrArg List.length hends
          rw [length_overlaySubs, List.length_nil, Nat.max_eq_zero_iff] at hlength
          exact sub.overlay_ne_empty (htop (List.eq_nil_of_length_eq_zero hlength.2))

theorem Tidy.merge {below above : Defaults} (h : below.Tidy) (habove : above.Tidy) :
    (below.merge above).Tidy :=
  ⟨h.full.merge habove.full, last_overlaySubs h.last habove.last⟩

theorem tidy_stated (parts : RecordParts) : (stated parts.main parts.subs).Tidy := by
  refine ⟨full_stated parts, fun last hlast => ?_⟩
  have hfull := not_isBlank_of_getLast?_dropBlankEnd hlast
  rintro rfl
  simp at hfull

end Defaults

theorem firstStated_mem {values : List String} (h : firstStated values ≠ "") :
    firstStated values ∈ values := by
  cases hfound : values.find? (fun value => !value.isEmpty) with
  | none => exact absurd (by simp [firstStated, hfound]) h
  | some value =>
      rw [firstStated, hfound, Option.getD_some]
      exact List.mem_of_find?_eq_some hfound

theorem exists_registration_of_latest {registrations : List Registration} {category : String}
    {place : Option Nat} {name : String} (h : latest registrations category place name ≠ "") :
    ∃ registration ∈ registrations, registration.category = category ∧
      (registration.parts.part place).value name = latest registrations category place name := by
  obtain ⟨registration, hr, hvalue⟩ := List.mem_map.1 (firstStated_mem h)
  obtain ⟨hmem, hcategory⟩ := List.mem_filter.1 hr
  exact ⟨registration, List.mem_reverse.1 hmem, by simpa using hcategory, hvalue⟩

theorem DefaultsTable.Sums.entry {table : DefaultsTable} {registrations : List Registration}
    (h : table.Sums registrations) {category : String} {entry : Defaults}
    (hentry : table.get? category = some entry) :
    (∃ registration ∈ registrations, registration.category = category) ∧
      ∀ place name, (entry.part place).value name = latest registrations category place name := by
  have hcategory := h category
  rwa [hentry] at hcategory

namespace Handler

variable {η : Type} {handler : Handler η} {config : MappingConfig}

def registersAs (handler : Handler η) (config : MappingConfig) (category : String)
    (row : Arrival η) : Bool :=
  handler.registers config row && (handler.registration config row).category == category

theorem exists_row_of_registration {rows : List (Arrival η)} {registration : Registration}
    (h : registration ∈ handler.registrations config rows) :
    ∃ row ∈ rows.filter (handler.registersAs config registration.category),
      handler.registration config row = registration := by
  obtain ⟨row, hrow, rfl⟩ := List.mem_map.1 h
  obtain ⟨hmem, hregisters⟩ := List.mem_filter.1 hrow
  exact ⟨row, List.mem_filter.2 ⟨hmem, by simp [registersAs, hregisters]⟩, rfl⟩

theorem columns_of_mem_history {reading : ReadingConfig} {uses : List (Use η)}
    {state : MappingState η} {row : Arrival η}
    (h : row ∈ handler.history config reading uses state) :
    row.state.session.columns = some row.columns := by
  induction uses generalizing state with
  | nil => cases h
  | cons use uses ih =>
      rcases List.mem_append.1 h with hnow | hlater
      · obtain ⟨before, after, harrivals⟩ := List.append_of_mem hnow
        exact columns_of_arrivals harrivals
      · exact ih hlater

section

variable {rows : List (Arrival η)} {table : DefaultsTable} {category : String} {entry : Defaults}
  (hsums : table.Sums (handler.registrations config rows))
  (hentry : table.get? category = some entry) (htidy : entry.Tidy)

include hsums hentry

theorem exists_row_of_entry : ∃ row, row ∈ rows.filter (handler.registersAs config category) := by
  obtain ⟨⟨registration, hr, rfl⟩, -⟩ := hsums.entry hentry
  obtain ⟨row, hrow, -⟩ := exists_row_of_registration hr
  exact ⟨row, hrow⟩

include htidy

theorem exists_row_of_value {place : Option Nat} {name value : String}
    (h : (entry.part place)[name]? = some value) :
    ∃ row ∈ rows.filter (handler.registersAs config category),
      row.columns.StatesAt row.fields place name value := by
  have hne : value ≠ "" := by simpa using htidy.full place name value h
  have hvalue : latest (handler.registrations config rows) category place name = value := by
    rw [← (hsums.entry hentry).2, Record.value_eq, h, Option.getD_some]
  obtain ⟨registration, hr, rfl, hstated⟩ := exists_registration_of_latest (hvalue ▸ hne)
  obtain ⟨row, hrow, rfl⟩ := exists_row_of_registration hr
  exact ⟨row, hrow, Arrival.statesAt_parts (hstated.trans hvalue) hne⟩

/-- A default row has a value in the group of the last sub-row, so its header has that group. -/
theorem exists_row_with_groups :
    ∃ row ∈ rows.filter (handler.registersAs config category),
      entry.subs.length ≤ row.columns.groups.length := by
  cases hlast : entry.subs.getLast? with
  | none =>
      obtain ⟨row, hrow⟩ := exists_row_of_entry hsums hentry
      exact ⟨row, hrow, by simp [List.getLast?_eq_none_iff.1 hlast]⟩
  | some last =>
      obtain ⟨name, value, hvalue⟩ := Record.exists_of_ne_empty (htidy.last last hlast)
      have hpart : entry.part (some (entry.subs.length - 1)) = last := by
        rw [List.getLast?_eq_getElem?] at hlast
        rw [Defaults.part, List.getD_eq_getElem?_getD, hlast, Option.getD_some]
      obtain ⟨row, hrow, hstates⟩ := exists_row_of_value hsums hentry htidy (hpart ▸ hvalue)
      exact ⟨row, hrow, Nat.le_of_pred_lt hstates.group_lt⟩

end

/-- Whatever is done with a reader, and whether it succeeds or fails: an entry holds no empty value,
its sub-rows end with one that holds something, there are no more of them than groups in the header
under which some default row of its category was taken, and each value stands where such a row has
it, in the main columns or in the group of its position. -/
theorem stored_entries (handler : Handler η) (config : MappingConfig) (reading : ReadingConfig)
    (own : η) (uses : List (Use η)) :
    let first : MappingState η := { handler := own }
    let state := handler.useAll config reading uses first
    let history := handler.history config reading uses first
    ∀ category entry, state.table.get? category = some entry →
      let rows := history.filter (handler.registersAs config category)
      (∀ row ∈ rows, row.state.session.columns = some row.columns) ∧
      entry.Tidy ∧
      (∃ row ∈ rows, entry.subs.length ≤ row.columns.groups.length) ∧
      ∀ place name value, (entry.part place)[name]? = some value →
        ∃ row ∈ rows, row.columns.StatesAt row.fields place name value := by
  intro first state history category entry hentry rows
  let registrations := handler.registrations config history
  have htable : state.table = DefaultsTable.mergeAll {} registrations :=
    useAll_table handler config reading uses first
  have hsums : state.table.Sums registrations := by
    rw [htable]
    exact DefaultsTable.sums_nil.mergeAll registrations
  have htidy : entry.Tidy := by
    rw [htable] at hentry
    exact DefaultsTable.each_empty.mergeAll Defaults.tidy_empty
      (fun _ _ hbelow habove => hbelow.merge habove) Defaults.tidy_stated registrations category
      entry hentry
  exact ⟨fun row hrow => columns_of_mem_history (List.mem_filter.1 hrow).1, htidy,
    exists_row_with_groups hsums hentry htidy,
    fun place name value => exists_row_of_value hsums hentry htidy⟩

theorem stored_entries_overlaid :
    let uses : List (Use Unit) := [
      .read "a.csv" {} (.ofText "type,v,*x,*y\n*r,1,2,\n*r,,,3\n"),
      .read "b.csv" {} (.ofText "type,*x\n*r,5\n*r\n*r,6\n")]
    let first : MappingState Unit := { handler := () }
    let state := lenient.useAll .takingDefaults {} uses first
    let rows := (lenient.history .takingDefaults {} uses first).filter
      (lenient.registersAs .takingDefaults "r")
    ∃ entry, state.table.get? "r" = some entry ∧ rows.length = 3 ∧
      entry.subs.map (·.toList) = [[("x", "5")], [("y", "3")]] ∧ entry.Tidy ∧
      (∃ row ∈ rows, row.state.session.columns = some row.columns ∧
        2 ≤ row.columns.groups.length) ∧
      ∃ row ∈ rows, row.columns.StatesAt row.fields (some 1) "y" "3" := by
  intro uses first state rows
  have hstored : (state.table.get? "r").map (fun entry =>
      (entry.subs.map (·.toList), (entry.part (some 1))["y"]?)) =
      some ([[("x", "5")], [("y", "3")]], some "3") := by decide +kernel
  obtain ⟨entry, hentry, hsubs⟩ := Option.map_eq_some_iff.1 hstored
  obtain ⟨hsubs, hvalue⟩ := Prod.mk.inj hsubs
  obtain ⟨hbound, htidy, ⟨row, hrow, hgroups⟩, hvalues⟩ :=
    stored_entries lenient .takingDefaults {} () uses "r" entry hentry
  have hlength : entry.subs.length = 2 := by simpa using congrArg List.length hsubs
  rw [hlength] at hgroups
  exact ⟨entry, hentry, by decide +kernel, hsubs, htidy, ⟨row, hrow, hbound row hrow, hgroups⟩,
    hvalues (some 1) "y" "3" hvalue⟩

end Handler

end DefinitionFiles
