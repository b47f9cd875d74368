import DefinitionFiles.Proofs.Mapping.Delivery

namespace DefinitionFiles

variable {η : Type} {handler : Handler η} {config : MappingConfig}

/-- The last value that default rows of a category state for a name in one of their parts. -/
def latest (registrations : List Registration) (category : String) (place : Option Nat)
    (name : String) : String :=
  firstStated ((registrations.reverse.filter (·.category = category)).map
    (fun registration => (registration.parts.part place).value name))

theorem latest_append (registrations : List Registration) (registration : Registration)
    (category : String) (place : Option Nat) (name : String) :
    latest (registrations ++ [registration]) category place name =
      if registration.category = category then
        firstStated [(registration.parts.part place).value name,
          latest registrations category place name]
      else latest registrations category place name := by
  simp only [latest, List.reverse_append, List.reverse_singleton, List.singleton_append,
    List.filter_cons, decide_eq_true_eq]
  split
  · rw [List.map_cons, firstStated_cons, firstStated_cons, firstStated_singleton]
  · rfl

theorem latest_of_forall_ne {registrations : List Registration} {category : String}
    (h : ∀ registration ∈ registrations, registration.category ≠ category) (place : Option Nat)
    (name : String) : latest registrations category place name = "" := by
  have hf : registrations.reverse.filter (·.category = category) = [] := by
    simpa using h
  rw [latest, hf, List.map_nil, firstStated_nil]

namespace DefaultsTable

def Sums (table : DefaultsTable) (registrations : List Registration) : Prop :=
  ∀ category,
    match table.get? category with
    | none => ∀ registration ∈ registrations, registration.category ≠ category
    | some entry =>
        (∃ registration ∈ registrations, registration.category = category) ∧
          ∀ place name, (entry.part place).value name = latest registrations category place name

theorem sums_nil : Sums {} [] := by
  intro category
  have h : get? {} category = none := Std.ExtTreeMap.getElem?_empty
  simp [h]

theorem Sums.merge {table : DefaultsTable} {registrations : List Registration}
    (h : table.Sums registrations) (registration : Registration) :
    (table.merge registration.category registration.stated).Sums
      (registrations ++ [registration]) := by
  intro category
  have hc := h category
  rw [get?_merge]
  by_cases he : registration.category = category
  · rw [if_pos he]
    refine ⟨⟨registration, by simp, he⟩, fun place name => ?_⟩
    have hfull : (registration.stated.part place).Full := by
      rw [Registration.stated, Defaults.part_stated]
      exact Record.full_withoutEmpty _
    rw [merged, Defaults.part_merge, Record.value_overlay _ hfull, latest_append, if_pos he,
      Registration.stated, Defaults.part_stated, Record.value_withoutEmpty, he]
    cases ht : table.get? category with
    | none =>
        rw [ht] at hc
        have hempty : (Defaults.part {} place).value name = "" := by cases place <;> simp [Defaults.part]
        rw [Option.getD_none, hempty, latest_of_forall_ne hc]
    | some entry =>
        rw [ht] at hc
        rw [Option.getD_some, hc.2]
  · rw [if_neg he]
    cases ht : table.get? category with
    | none =>
        rw [ht] at hc
        intro other hother
        rcases List.mem_append.1 hother with hother | hother
        · exact hc other hother
        · exact List.mem_singleton.1 hother ▸ he
    | some entry =>
        rw [ht] at hc
        obtain ⟨⟨other, hother, hcategory⟩, hvalue⟩ := hc
        refine ⟨⟨other, by simp [hother], hcategory⟩, fun place name => ?_⟩
        rw [hvalue, latest_append, if_neg he]

theorem Sums.mergeAll {table : DefaultsTable} {registrations : List Registration}
    (h : table.Sums registrations) (more : List Registration) :
    (table.mergeAll more).Sums (registrations ++ more) := by
  induction more generalizing table registrations with
  | nil => rwa [List.append_nil]
  | cons registration more ih =>
      have hm := ih (h.merge registration)
      rwa [List.append_assoc, List.singleton_append] at hm

end DefaultsTable

/-- The value for a name that counts for a row of these categories: the latest of the first
category that has default rows. -/
def standing (registrations : List Registration) (categories : List String) (place : Option Nat)
    (name : String) : String :=
  match categories.find? (fun category => registrations.any (·.category = category)) with
  | none => ""
  | some category => latest registrations category place name

theorem DefaultsTable.Sums.first? {table : DefaultsTable} {registrations : List Registration}
    (h : table.Sums registrations) (categories : List String) (place : Option Nat) (name : String) :
    standing registrations categories place name =
      match table.first? categories with
      | none => ""
      | some entry => (entry.part place).value name := by
  induction categories with
  | nil => rfl
  | cons category categories ih =>
      have hc := h category
      simp only [standing, DefaultsTable.first?, List.find?_cons, List.findSome?_cons] at ih ⊢
      cases ht : table.get? category with
      | none =>
          rw [ht] at hc
          have hany : registrations.any (·.category = category) = false := by simpa using hc
          rw [hany]
          exact ih
      | some entry =>
          rw [ht] at hc
          have hany : registrations.any (·.category = category) = true := by simpa using hc.1
          rw [hany]
          exact (hc.2 place name).symm

namespace Handler

variable {primary : Arrival η} {registrations : List Registration}

theorem getElem?_settled_main (hfill : config.fillsDefaults = true)
    (hsums : primary.state.table.Sums registrations) (name : String) :
    (handler.settled config primary).main[name]? = (primary.parts config).main[name]?.map
      (fun own => firstStated [own, primary.context.fileDefaults.value name,
        standing registrations (handler.keys config primary) none name]) := by
  have hfirst := hsums.first? (handler.keys config primary) none name
  simp only [settled, hfill, if_true]
  cases ht : primary.state.table.first? (handler.keys config primary) with
  | none =>
      rw [ht] at hfirst
      simp only [hfirst, Record.getElem?_fill]
      rfl
  | some entry =>
      rw [ht] at hfirst
      simp only [hfirst, Record.getElem?_fill, Option.map_map]
      congr 1
      funext own
      exact firstStated_firstStated_cons [own, primary.context.fileDefaults.value name] _

theorem length_settled_subs :
    (handler.settled config primary).subs.length = (primary.parts config).subs.length := by
  simp only [settled]
  split
  · split
    · rfl
    · exact Defaults.length_fillSubs _ _
  · rfl

theorem getElem?_settled_subs (hfill : config.fillsDefaults = true)
    (hsums : primary.state.table.Sums registrations) {i : Nat} {sub : Record}
    (hsub : (primary.parts config).subs[i]? = some sub) :
    ∃ filled, (handler.settled config primary).subs[i]? = some filled ∧
      ∀ name : String, filled[name]? = sub[name]?.map (fun own =>
        firstStated [own, standing registrations (handler.keys config primary) (some i) name]) := by
  have hfirst := hsums.first? (handler.keys config primary) (some i)
  simp only [settled, hfill, if_true]
  cases ht : primary.state.table.first? (handler.keys config primary) with
  | none =>
      rw [ht] at hfirst
      refine ⟨sub, hsub, fun name => ?_⟩
      simp [hfirst, firstStated_pair_empty]
  | some entry =>
      rw [ht] at hfirst
      refine ⟨sub.fill (entry.part (some i)), ?_, fun name => ?_⟩
      · rw [Defaults.getElem?_fillSubs, hsub]
        rfl
      · rw [Record.getElem?_fill, hfirst]

theorem settled_main_value (hfill : config.fillsDefaults = true) (hfits : primary.Fits config)
    (hsums : primary.state.table.Sums registrations) {name : String}
    (hname : name ∈ primary.columns.main) :
    (handler.settled config primary).main[name]? =
      some (firstStated [(primary.parts config).main.value name,
        primary.context.fileDefaults.value name,
        standing registrations (handler.keys config primary) none name]) := by
  have hmem := (Arrival.mem_parts_main hfits).2 hname
  rw [getElem?_settled_main hfill hsums, Record.getElem?_of_mem hmem]
  rfl

theorem settled_sub_value (hfill : config.fillsDefaults = true) (hfits : primary.Fits config)
    (hsums : primary.state.table.Sums registrations) {i : Nat}
    (hi : i < (primary.parts config).subs.length) :
    ∃ group sub, primary.columns.groups[i]? = some group ∧
      (handler.settled config primary).subs[i]? = some sub ∧
        ∀ name ∈ group, sub[name]? =
          some (firstStated [((primary.parts config).part (some i)).value name,
            standing registrations (handler.keys config primary) (some i) name]) := by
  have hsub := List.getElem?_eq_getElem hi
  obtain ⟨group, hgroup, hmem⟩ := Arrival.group_of_parts_subs hfits hsub
  obtain ⟨filled, hfilled, hvalue⟩ := getElem?_settled_subs hfill hsums hsub
  refine ⟨group, filled, hgroup, hfilled, fun name hname => ?_⟩
  have hm := (hmem name).2 hname
  have hpart : (primary.parts config).part (some i) = (primary.parts config).subs[i] := by
    simp [RecordParts.part, hi]
  rw [hvalue, hpart, Record.getElem?_of_mem hm]
  rfl

/-- Where the values come from that a primary row is handed on with. -/
theorem record_values (handler : Handler η) (config : MappingConfig)
    (hfill : config.fillsDefaults = true) (reading : ReadingConfig) (own : η) (uses : List (Use η))
    (source : String) (options : SourceOptions) (feed : Feed) :
    let first : MappingState η := { handler := own }
    let earlier := handler.useAll config reading uses first
    let read := (handler.sink config).readSource reading source options feed earlier
    let arrivals := handler.arrivals config (readScript reading.limits source options feed) earlier
    let device := handler.deviceName ((Path.fileName? source).getD source) earlier.handler
    let fileDefault (name : String) :=
      ((device.bind (·.values[name]?)).or (options.defaults.bind (·[name]?))).getD ""
    ∃ calls, read.state.calls.toList = earlier.calls.toList ++ calls ∧
      ∀ main subs ctx, .record main subs ctx ∈ calls →
        ∃ before primary continuations after,
          arrivals = before ++ primary :: (continuations ++ after) ∧
          (Delivery.record primary continuations).Kinded handler config ∧
          ctx = primary.context ∧ primary.state.session.columns = some ctx.columns ∧
          let parts := primary.parts config
          let keys := handler.keys config primary
          let stated := handler.registrations config
            (handler.history config reading uses first ++ before)
          (∀ place name, standing stated keys place name =
            match primary.state.table.first? keys with
            | none => ""
            | some entry => (entry.part place).value name) ∧
          (∀ name ∈ ctx.columns.main, main[name]? =
            some (firstStated [parts.main.value name, fileDefault name,
              standing stated keys none name])) ∧
          (∀ i < parts.subs.length, ∃ group sub,
            ctx.columns.groups[i]? = some group ∧ subs[i]? = some sub ∧
              ∀ name ∈ group, sub[name]? =
                some (firstStated [(parts.part (some i)).value name,
                  standing stated keys (some i) name])) ∧
          subs.drop parts.subs.length = continuations.flatMap (·.joining config) := by
  intro first earlier read arrivals device fileDefault
  obtain ⟨deliveries, dropped, hrows, hdelivers, -⟩ :=
    script_delivers handler config reading.limits source options feed earlier
  have hcalls : read.state.calls = _ := congrArg MappingState.calls
    (readSource_state reading source options feed earlier)
  let rows := placedRows source options.verbose
    (rowReads reading.limits (.ofFeed reading.limits feed))
  refine ⟨openingCalls source rows ++ deliveries.map (handler.deliveryCall config), ?_, ?_⟩
  · rw [hcalls, hdelivers.calls, offered_start_calls, List.append_assoc]
  · intro main subs ctx hcall
    have hdelivery : HookCall.record main subs ctx ∈
        deliveries.map (handler.deliveryCall config) := by
      simpa [openingCalls] using hcall
    obtain ⟨delivery, hd, hrecord⟩ := List.mem_map.1 hdelivery
    cases delivery with
    | defaults row => cases hrecord
    | record primary continuations =>
        obtain ⟨rfl, rfl, rfl⟩ := HookCall.record.inj hrecord
        obtain ⟨before, after, hsplit⟩ := Delivery.rows_split hd dropped
        have harrivals : arrivals = before ++ primary :: (continuations ++ after) :=
          hrows.trans hsplit
        have hkinded := hdelivers.kinded _ hd
        have hfits := hkinded.1.2
        have hsums : primary.state.table.Sums (handler.registrations config
            (handler.history config reading uses first ++ before)) := by
          have hearlier : earlier.table = _ := useAll_table handler config reading uses first
          rw [table_of_arrivals harrivals, hearlier, registrations_append]
          exact (DefaultsTable.sums_nil.mergeAll _).mergeAll _
        have hfile (name : String) : primary.context.fileDefaults.value name = fileDefault name := by
          have hscript := fileDefaults_of_script harrivals
          exact (congrArg (·.value name) hscript).trans
            (start_fileDefaults handler source options earlier name)
        refine ⟨before, primary, continuations, after, harrivals, hkinded, rfl,
          columns_of_arrivals harrivals, hsums.first? _, ?_, ?_, ?_⟩
        · intro name hname
          rw [settled_main_value hfill hfits hsums hname, hfile]
        · intro i hi
          obtain ⟨group, sub, hgroup, hsub, hvalue⟩ := settled_sub_value hfill hfits hsums hi
          refine ⟨group, sub, hgroup, ?_, hvalue⟩
          rw [List.getElem?_append_left (length_settled_subs ▸ hi)]
          exact hsub
        · rw [← length_settled_subs, List.drop_left]

theorem record_values_lenient :
    let sink := lenient.sink .takingDefaults
    let uses : List (Use Unit) := [.read "a.csv" {} (.ofText "type,id,v\n*r,,9\n")]
    let earlier := lenient.useAll .takingDefaults {} uses { handler := () }
    let read := sink.readSource {} "b.csv" {} (.ofText "type,id,v\nr,a,\n") earlier
    ∃ main subs ctx primary stated,
      .record main subs ctx ∈ read.state.calls.toList.drop earlier.calls.size ∧
        main["v"]? = some "9" ∧
          main["v"]? = some (firstStated [(primary.parts .takingDefaults).main.value "v", "",
            standing stated (lenient.keys .takingDefaults primary) none "v"]) := by
  intro sink uses earlier read
  obtain ⟨calls, hcalls, hvalues⟩ := record_values lenient .takingDefaults rfl {} () uses "b.csv" {}
    (.ofText "type,id,v\nr,a,\n")
  have hnew : read.state.calls.toList.drop earlier.calls.size = calls := by
    rw [show read.state.calls.toList = earlier.calls.toList ++ calls from hcalls,
      ← Array.length_toList, List.drop_left]
  have hsome : (read.state.calls.toList.drop earlier.calls.size).any (fun call =>
      match call with
      | .record main _ ctx => main["v"]? == some "9" && ctx.columns.main.contains "v"
      | _ => false) = true := by decide +kernel
  rw [hnew] at hsome ⊢
  obtain ⟨call, hmem, hcall⟩ := List.any_eq_true.1 hsome
  cases call with
  | record main subs ctx =>
      obtain ⟨before, primary, _, _, _, _, rfl, _, _, hmain, _⟩ := hvalues main subs ctx hmem
      simp only [Bool.and_eq_true, beq_iff_eq, List.contains_iff_mem] at hcall
      exact ⟨main, subs, _, primary, _, hmem, hcall.1, hmain "v" hcall.2⟩
  | fileName name => cases hcall
  | header row => cases hcall
  | defaults category entry ctx => cases hcall

end Handler

end DefinitionFiles
