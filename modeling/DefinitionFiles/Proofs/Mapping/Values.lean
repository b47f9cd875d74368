import DefinitionFiles.Proofs.Mapping.Isolation
import DefinitionFiles.Proofs.Mapping.Resolution
import DefinitionFiles.Proofs.Row.ReadBack

namespace DefinitionFiles

variable {p : String → Prop}

def Record.AllValues (p : String → Prop) (record : Record) : Prop := ∀ name, p (record.value name)

theorem firstStated_of_forall (hempty : p "") {values : List String} (h : ∀ value ∈ values, p value) :
    p (firstStated values) := by
  induction values with
  | nil => exact hempty
  | cons value values ih =>
      obtain ⟨hvalue, hvalues⟩ := List.forall_mem_cons.1 h
      rw [firstStated_cons]
      split
      · exact ih hvalues
      · exact hvalue

namespace Record

theorem AllValues.insert {record : Record} (h : record.AllValues p) (name : String) {value : String}
    (hvalue : p value) : AllValues p (Std.ExtTreeMap.insert record name value) := by
  intro other
  rw [value_eq, Std.ExtTreeMap.getElem?_insert]
  split
  · exact hvalue
  · rw [← value_eq]
    exact h other

theorem AllValues.insertMany {record : Record} (h : record.AllValues p)
    {entries : List (String × String)} (hentries : ∀ entry ∈ entries, p entry.2) :
    AllValues p (Std.ExtTreeMap.insertMany record entries) := by
  induction entries generalizing record with
  | nil => simpa using h
  | cons entry entries ih =>
      obtain ⟨hentry, hrest⟩ := List.forall_mem_cons.1 hentries
      obtain ⟨name, value⟩ := entry
      rw [Std.ExtTreeMap.insertMany_cons]
      exact ih (h.insert name hentry) hrest

theorem allValues_empty (hempty : p "") : AllValues p ∅ := fun name => by rwa [value_empty]

theorem allValues_ofList (hempty : p "") {entries : List (String × String)}
    (h : ∀ entry ∈ entries, p entry.2) : AllValues p (Std.ExtTreeMap.ofList entries) := by
  rw [Std.ExtTreeMap.ofList_eq_insertMany_empty]
  exact (allValues_empty hempty).insertMany h

theorem forall_mem_pairUp (hempty : p "") (names : List String) {fields : Row}
    (h : ∀ field ∈ fields, p field) : ∀ entry ∈ pairUp names fields, p entry.2 := by
  induction names generalizing fields with
  | nil => exact List.forall_mem_nil _
  | cons name names ih =>
      refine List.forall_mem_cons.2 ⟨?_, ih fun field hf => h field (List.mem_of_mem_tail hf)⟩
      cases fields with
      | nil => exact hempty
      | cons field fields => exact h field List.mem_cons_self

theorem allValues_ofFields (hempty : p "") (names : List String) {fields : Row}
    (h : ∀ field ∈ fields, p field) : (ofFields names fields).AllValues p :=
  allValues_ofList hempty (forall_mem_pairUp hempty names h)

end Record

theorem Columns.allValues_deal (hempty : p "") (groups : List (List String)) {fields : Row}
    (h : ∀ field ∈ fields, p field) : ∀ sub ∈ deal groups fields, sub.AllValues p := by
  induction groups generalizing fields with
  | nil => exact List.forall_mem_nil _
  | cons group groups ih =>
      refine List.forall_mem_cons.2 ⟨Record.allValues_ofFields hempty group h, ?_⟩
      exact ih fun field hf => h field (List.mem_of_mem_drop hf)

def RecordParts.AllValues (p : String → Prop) (parts : RecordParts) : Prop :=
  parts.main.AllValues p ∧ ∀ sub ∈ parts.subs, sub.AllValues p

theorem RecordParts.AllValues.part (hempty : p "") {parts : RecordParts} (h : parts.AllValues p)
    (place : Option Nat) : (parts.part place).AllValues p := by
  cases place with
  | none => exact h.1
  | some i =>
      rw [RecordParts.part, List.getD_eq_getElem?_getD]
      cases hsub : parts.subs[i]? with
      | none => exact Record.allValues_empty hempty
      | some sub => exact h.2 sub (List.mem_of_getElem? hsub)

theorem Columns.allValues_of_assign (hempty : p "") {columns : Columns} {width : RowWidth} {row : Row}
    {parts : RecordParts} (hassign : columns.assign width row = .ok parts)
    (h : ∀ field ∈ row, p field) : parts.AllValues p := by
  simp only [assign] at hassign
  split at hassign
  · cases hassign
    refine ⟨Record.allValues_ofFields hempty _ h, fun sub hsub => ?_⟩
    have hdealt : ∀ sub ∈ deal columns.groups (row.drop columns.main.length), sub.AllValues p :=
      allValues_deal hempty _ fun field hf => h field (List.mem_of_mem_drop hf)
    obtain ⟨dropped, hdeal, -⟩ := dropBlankEnd_append Record.isBlank
      (deal columns.groups (row.drop columns.main.length))
    exact hdealt sub (hdeal ▸ List.mem_append_left dropped hsub)
  · cases hassign

theorem Arrival.allValues_parts {η : Type} (hempty : p "") {arrival : Arrival η}
    (config : MappingConfig) (h : ∀ field ∈ arrival.fields, p field) :
    (arrival.parts config).AllValues p := by
  simp only [parts]
  split
  · rename_i hassigned
    exact Columns.allValues_of_assign hempty hassigned h
  · exact ⟨Record.allValues_empty hempty, List.forall_mem_nil _⟩

section

variable {registrations : List Registration}
  (h : ∀ registration ∈ registrations, registration.parts.AllValues p)

include h

theorem latest_of_allValues (hempty : p "") (category : String) (place : Option Nat) (name : String) :
    p (latest registrations category place name) := by
  refine firstStated_of_forall hempty fun value hvalue => ?_
  obtain ⟨registration, hr, rfl⟩ := List.mem_map.1 hvalue
  have hmem := List.mem_reverse.1 (List.mem_filter.1 hr).1
  exact (h registration hmem).part hempty place name

theorem standing_of_allValues (hempty : p "") (categories : List String) (place : Option Nat)
    (name : String) : p (standing registrations categories place name) := by
  simp only [standing]
  split
  · exact hempty
  · exact latest_of_allValues h hempty _ place name

end

namespace Handler

variable {η : Type} {handler : Handler η} {config : MappingConfig}

/-- Values are fields, values that file names and callers state, or empty: whatever holds of all of
these holds of every value that is handed on. -/
theorem allValues_settled (hempty : p "") (hfill : config.fillsDefaults = true)
    {primary : Arrival η} {registrations : List Registration}
    (hsums : primary.state.table.Sums registrations)
    (hstated : ∀ registration ∈ registrations, registration.parts.AllValues p)
    (hparts : (primary.parts config).AllValues p)
    (hfile : primary.context.fileDefaults.AllValues p) :
    (handler.settled config primary).AllValues p := by
  have hstanding := standing_of_allValues hstated hempty (handler.keys config primary)
  constructor
  · intro name
    have hown := hparts.1 name
    rw [Record.value_eq] at hown
    rw [Record.value_eq, getElem?_settled_main hfill hsums]
    cases hm : (primary.parts config).main[name]? with
    | none => exact hempty
    | some own =>
        rw [hm] at hown
        exact firstStated_of_forall hempty (by simpa using ⟨hown, hfile name, hstanding none name⟩)
  · intro filled hfilled name
    obtain ⟨i, hi⟩ := List.getElem?_of_mem hfilled
    have hlength : (handler.settled config primary).subs.length = (primary.parts config).subs.length :=
      length_settled_subs
    have hlt : i < (primary.parts config).subs.length :=
      hlength ▸ (List.getElem?_eq_some_iff.1 hi).1
    have hsub := List.getElem?_eq_getElem hlt
    obtain ⟨other, hother, hvalue⟩ :
        ∃ other, (handler.settled config primary).subs[i]? = some other ∧ _ :=
      getElem?_settled_subs hfill hsums hsub
    obtain rfl : other = filled := Option.some.inj (hother.symm.trans hi)
    have hown := hparts.2 _ (List.mem_of_getElem? hsub) name
    rw [Record.value_eq] at hown
    rw [Record.value_eq, hvalue]
    cases hm : (primary.parts config).subs[i][name]? with
    | none => exact hempty
    | some own =>
        rw [hm] at hown
        exact firstStated_of_forall hempty (by simpa using ⟨hown, hstanding (some i) name⟩)

theorem allValues_of_script (hempty : p "") (hfill : config.fillsDefaults = true) {limits : Limits}
    {source : String} {options : SourceOptions} {feed : Feed} {state : MappingState η}
    {registrations : List Registration} (hsums : state.table.Sums registrations)
    (hstated : ∀ registration ∈ registrations, registration.parts.AllValues p)
    (hfile : (handler.start source options state).session.fileDefaults.AllValues p)
    (hfields : ∀ row ∈ handler.arrivals config (readScript limits source options feed) state,
      ∀ field ∈ row.fields, p field) :
    ∀ row ∈ handler.arrivals config (readScript limits source options feed) state,
      (handler.settled config row).AllValues p := by
  intro row hrow
  obtain ⟨before, after, harrivals⟩ := List.append_of_mem hrow
  have hbefore : ∀ other ∈ before ++ [row], (other.parts config).AllValues p := by
    intro other hother
    refine other.allValues_parts hempty config (hfields other ?_)
    rw [harrivals, List.append_cons]
    exact List.mem_append_left after hother
  have hmet : row.state.table.Sums (registrations ++ handler.registrations config before) := by
    rw [table_of_arrivals harrivals]
    exact hsums.mergeAll _
  refine allValues_settled hempty hfill hmet ?_ (hbefore row (by simp)) ?_
  · refine List.forall_mem_append.2 ⟨hstated, fun registration hr => ?_⟩
    obtain ⟨other, hother, rfl⟩ := List.mem_map.1 hr
    exact hbefore other (List.mem_append_left [row] (List.mem_filter.1 hother).1)
  · have hcontext : row.context.fileDefaults =
        (handler.start source options state).session.fileDefaults := fileDefaults_of_script harrivals
    rwa [hcontext]

end Handler

theorem exists_position_of_mem_placedRows {limits : Limits} {source : String} {verbose : Bool}
    {position : Position} {row : PlacedRow}
    (h : row ∈ placedRows source verbose (rowReads limits position)) :
    ∃ before : Position, before.rest <:+ position.rest ∧
      (∃ more, (readLogicalRow limits before).outcome = .ok more) ∧
        (readLogicalRow limits before).row = row.row := by
  induction position using readLogicalRow_induction limits with
  | step position ih =>
      have hcounts : (readLogicalRow limits position).CountsLines position.line position.rest :=
        readRowFrom_countsLines _ _ _ _ _ _
      cases he : (readLogicalRow limits position).isEnd with
      | true =>
          rw [rowReads_of_isEnd he] at h
          obtain ⟨ho, rfl | hlater⟩ := mem_placedRows_cons h
          · exact ⟨position, List.suffix_refl _, ho, rfl⟩
          · cases hlater
      | false =>
          rw [rowReads_of_not_isEnd he] at h
          obtain ⟨⟨more, ho⟩, rfl | hlater⟩ := mem_placedRows_cons h
          · exact ⟨position, List.suffix_refl _, ⟨more, ho⟩, rfl⟩
          · obtain ⟨before, hbefore, hread⟩ := ih he hlater
            obtain ⟨taken, -, hrest⟩ := hcounts more ho
            exact ⟨before, hbefore.trans (hrest ▸ List.drop_suffix taken _), hread⟩

theorem placedRows_fields {limits : Limits} {feed : Feed} {source : String} {verbose : Bool}
    {row : PlacedRow}
    (h : row ∈ placedRows source verbose (rowReads limits (.ofFeed limits feed))) :
    ∀ field ∈ row.row, '\n' ∉ field.toList := by
  obtain ⟨before, hbefore, ⟨more, ho⟩, hrow⟩ := exists_position_of_mem_placedRows h
  rw [← hrow]
  cases more with
  | true => exact fun field hf => (readLogicalRow_fields hbefore ho field hf).2
  | false => simp [(readLogicalRow_end ho).2]

theorem lineFeed_not_mem_withoutMark {row : Row} (h : ∀ field ∈ row, '\n' ∉ field.toList) :
    ∀ field ∈ row.withoutMark, '\n' ∉ field.toList := by
  cases row with
  | nil => exact h
  | cons field rest =>
      obtain ⟨hfield, hrest⟩ := List.forall_mem_cons.1 h
      refine List.forall_mem_cons.2 ⟨?_, hrest⟩
      simp only [splitMark]
      split
      · exact hfield
      · rename_i c more hchars
        split
        · rw [String.toList_ofList]
          exact fun hm => hfield (hchars ▸ List.mem_cons_of_mem c hm)
        · exact hfield

theorem Handler.lineFeed_not_mem_of_script {η : Type} {handler : Handler η} {config : MappingConfig}
    {limits : Limits} {source : String} {options : SourceOptions} {feed : Feed}
    {state : MappingState η} {row : Arrival η}
    (h : row ∈ handler.arrivals config (readScript limits source options feed) state) :
    ∀ field ∈ row.fields, '\n' ∉ field.toList := by
  have hplaced := placed_of_mem_script (placed_of_mem_arrivals h)
  have hfields := placedRows_fields hplaced
  simp only [Arrival.fields]
  split
  · exact lineFeed_not_mem_withoutMark hfields
  · exact hfields

end DefinitionFiles
