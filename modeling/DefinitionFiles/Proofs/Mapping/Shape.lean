import DefinitionFiles.Proofs.Columns.Pairing
import DefinitionFiles.Proofs.Mapping.Resolution

namespace DefinitionFiles

namespace Record

def HasJust (record : Record) (names : List String) : Prop := ∀ name, name ∈ record ↔ name ∈ names

def SameNames (record other : Record) : Prop := ∀ name, name ∈ record ↔ name ∈ other

def States (record : Record) : Prop := ∃ name, record.value name ≠ ""

variable {record : Record}

theorem sameNames_fill (record defaults : Record) : (record.fill defaults).SameNames record :=
  fun _ => Std.ExtTreeMap.mem_map

theorem SameNames.refl (record : Record) : record.SameNames record := fun _ => Iff.rfl

theorem SameNames.trans {other third : Record} (h : record.SameNames other)
    (h' : other.SameNames third) : record.SameNames third :=
  fun name => (h name).trans (h' name)

theorem forall₂_sameNames_refl (subs : List Record) : List.Forall₂ SameNames subs subs :=
  List.forall₂_same.2 fun sub _ => .refl sub

theorem SameNames.hasJust {other : Record} {names : List String} (h : record.SameNames other)
    (hother : other.HasJust names) : record.HasJust names :=
  fun name => (h name).trans (hother name)

theorem value_fill_of_ne_empty {defaults : Record} {name : String} (h : record.value name ≠ "") :
    (record.fill defaults).value name = record.value name := by
  rw [value_eq] at h
  rw [value_eq, value_eq, getElem?_fill]
  cases hr : record[name]? with
  | none => rfl
  | some own =>
      have hown : own ≠ "" := by simpa [hr] using h
      simp [firstStated_cons, hown]

theorem States.fill (h : record.States) (defaults : Record) : (record.fill defaults).States := by
  obtain ⟨name, hname⟩ := h
  exact ⟨name, by rwa [value_fill_of_ne_empty hname]⟩

theorem states_of_not_isBlank (h : record.isBlank = false) : record.States := by
  obtain ⟨value, hvalue, hfull⟩ := List.all_eq_false.1 h
  rw [values_eq] at hvalue
  obtain ⟨⟨name, _⟩, hmem, rfl⟩ := List.mem_map.1 hvalue
  have hget := Std.ExtTreeMap.mem_toList_iff_getElem?_eq_some.1 hmem
  exact ⟨name, by simpa [value_eq, hget] using hfull⟩

end Record

theorem not_isBlank_of_getLast?_dropBlankEnd {isBlank : Record → Bool} {subs : List Record}
    {last : Record} (h : (dropBlankEnd isBlank subs).getLast? = some last) :
    isBlank last = false := by
  rw [dropBlankEnd, List.getLast?_reverse] at h
  have hhead := List.head?_dropWhile_not isBlank subs.reverse
  simpa [h] using hhead

namespace Columns

/-- Sub-rows for the first groups of columns, with the names of these. -/
def HasSubs (columns : Columns) (subs : List Record) : Prop :=
  List.Forall₂ Record.HasJust subs (columns.groups.take subs.length)

theorem HasSubs.length_le {columns : Columns} {subs : List Record} (h : columns.HasSubs subs) :
    subs.length ≤ columns.groups.length := by
  have hlength := h.length_eq
  rw [List.length_take] at hlength
  omega

theorem HasSubs.group {columns : Columns} {subs : List Record} (h : columns.HasSubs subs) {i : Nat}
    {sub : Record} (hsub : subs[i]? = some sub) :
    ∃ group, columns.groups[i]? = some group ∧ sub.HasJust group := by
  obtain ⟨hi, rfl⟩ := List.getElem?_eq_some_iff.1 hsub
  have hgroups : i < columns.groups.length := Nat.lt_of_lt_of_le hi h.length_le
  have hsubs := h.get hi (by rw [List.length_take]; omega)
  exact ⟨columns.groups[i], List.getElem?_eq_getElem hgroups, by simpa using hsubs⟩

theorem forall₂_hasJust_deal (groups : List (List String)) (fields : Row) :
    List.Forall₂ Record.HasJust (deal groups fields) groups := by
  induction groups generalizing fields with
  | nil => exact .nil
  | cons group groups ih => exact .cons (fun _ => Record.mem_ofFields) (ih _)

theorem HasSubs.of_sameNames {columns : Columns} {subs own : List Record}
    (hsame : List.Forall₂ Record.SameNames subs own) (h : columns.HasSubs own) :
    columns.HasSubs subs := by
  rw [HasSubs, hsame.length_eq]
  rw [HasSubs] at h
  generalize columns.groups.take own.length = groups at h ⊢
  induction hsame generalizing groups with
  | nil => exact h
  | cons hsub _ ih =>
      cases h with
      | cons hown hrest => exact .cons (hsub.hasJust hown) (ih _ hrest)

theorem hasSubs_dropBlankEnd_deal (columns : Columns) (isBlank : Record → Bool) (fields : Row) :
    columns.HasSubs (dropBlankEnd isBlank (deal columns.groups fields)) := by
  obtain ⟨dropped, hdeal, -⟩ := dropBlankEnd_append isBlank (deal columns.groups fields)
  generalize dropBlankEnd isBlank (deal columns.groups fields) = kept at hdeal ⊢
  have hkept := List.forall₂_take kept.length (forall₂_hasJust_deal columns.groups fields)
  rwa [hdeal, List.take_left] at hkept

/-- Records with the names that columns give them: a main one, and sub-rows for the first groups,
the last of them not blank. -/
structure Shapes (columns : Columns) (parts : RecordParts) : Prop where
  main : parts.main.HasJust columns.main
  count : parts.subs.length ≤ columns.groups.length
  subs : columns.HasSubs parts.subs
  last : ∀ last ∈ parts.subs.getLast?, last.States

end Columns

namespace Defaults

theorem sameNames_fillSubs (defaults subs : List Record) :
    List.Forall₂ Record.SameNames (fillSubs defaults subs) subs := by
  induction defaults generalizing subs with
  | nil => exact Record.forall₂_sameNames_refl subs
  | cons sub defaults ih =>
      cases subs with
      | nil => exact .nil
      | cons own subs => exact .cons (own.sameNames_fill sub) (ih subs)

theorem states_last_fillSubs {subs : List Record} (h : ∀ last ∈ subs.getLast?, last.States)
    (defaults : List Record) : ∀ last ∈ (fillSubs defaults subs).getLast?, last.States := by
  intro filled hfilled
  rw [List.getLast?_eq_getElem?, getElem?_fillSubs, length_fillSubs, Option.mem_def,
    Option.map_eq_some_iff] at hfilled
  obtain ⟨last, hlast, rfl⟩ := hfilled
  rw [← List.getLast?_eq_getElem?] at hlast
  exact (h last hlast).fill _

end Defaults

theorem Arrival.shapes_parts {η : Type} {arrival : Arrival η} {config : MappingConfig}
    (h : arrival.Fits config) : arrival.columns.Shapes (arrival.parts config) := by
  have hsubs : arrival.columns.HasSubs (arrival.parts config).subs := by
    rw [parts_eq h]
    exact arrival.columns.hasSubs_dropBlankEnd_deal _ _
  refine ⟨fun _ => mem_parts_main h, hsubs.length_le, hsubs, ?_⟩
  rw [parts_eq h]
  exact fun last hlast => Record.states_of_not_isBlank (not_isBlank_of_getLast?_dropBlankEnd hlast)

namespace Handler

variable {η : Type} {handler : Handler η} {config : MappingConfig} {primary : Arrival η}

theorem sameNames_filled (ctx : RecordContext) (state : MappingState η) (held : HeldRow) :
    let filled := (handler.filled ctx state held).2
    filled.1.SameNames held.main ∧ List.Forall₂ Record.SameNames filled.2 held.subs := by
  simp only [filled]
  split
  · exact ⟨Record.sameNames_fill _ _, Record.forall₂_sameNames_refl _⟩
  · rename_i entry _
    let groups := min held.groups held.subs.length
    have hfilled := Defaults.sameNames_fillSubs entry.subs (held.subs.take groups)
    have hrest := Record.forall₂_sameNames_refl (held.subs.drop groups)
    have hall : List.Forall₂ Record.SameNames (_ ++ _) (_ ++ _) := List.rel_append hfilled hrest
    rw [List.take_append_drop] at hall
    exact ⟨(Record.sameNames_fill _ _).trans (Record.sameNames_fill _ _), hall⟩

theorem sameNames_handed (handler : Handler η) (config : MappingConfig) (ctx : RecordContext)
    (state : MappingState η) (held : HeldRow) :
    let handed := (handler.handed config ctx state held).2
    handed.1.SameNames held.main ∧ List.Forall₂ Record.SameNames handed.2 held.subs := by
  simp only [handed]
  split
  · exact sameNames_filled ctx state held
  · exact ⟨.refl held.main, Record.forall₂_sameNames_refl held.subs⟩

theorem release_sameNames (place : RowPlace) {state : MappingState η} {held : HeldRow}
    {columns : Columns} (hheld : state.session.held = some held)
    (hcolumns : state.session.columns = some columns) :
    ∃ main subs ctx, (handler.release config place state).2.calls =
        state.calls.push (.record main subs ctx) ∧
      main.SameNames held.main ∧ List.Forall₂ Record.SameNames subs held.subs := by
  let ctx := (state.hold none).session.context columns { place with line := held.line }
  refine ⟨_, _, ctx, ?_, sameNames_handed handler config ctx (state.hold none) held⟩
  rw [release_of_held handler config hheld hcolumns]
  exact congrArg (Array.push · _) (handed_calls ctx (state.hold none) held)

theorem sameNames_settled_main :
    (handler.settled config primary).main.SameNames (primary.parts config).main := by
  simp only [settled]
  split
  · split
    · exact Record.sameNames_fill _ _
    · exact (Record.sameNames_fill _ _).trans (Record.sameNames_fill _ _)
  · exact .refl _

theorem sameNames_settled_subs :
    List.Forall₂ Record.SameNames (handler.settled config primary).subs
      (primary.parts config).subs := by
  simp only [settled]
  split
  · split
    · exact Record.forall₂_sameNames_refl _
    · exact Defaults.sameNames_fillSubs _ _
  · exact Record.forall₂_sameNames_refl _

theorem shapes_settled (hfits : primary.Fits config) :
    primary.columns.Shapes (handler.settled config primary) := by
  have hparts := Arrival.shapes_parts hfits
  have hsubs : primary.columns.HasSubs (handler.settled config primary).subs :=
    hparts.subs.of_sameNames sameNames_settled_subs
  refine ⟨sameNames_settled_main.hasJust hparts.main, hsubs.length_le, hsubs, ?_⟩
  simp only [settled]
  split
  · split
    · exact hparts.last
    · exact Defaults.states_last_fillSubs hparts.last _
  · exact hparts.last

/-- What is handed on has the shape that the columns of its source give it: a main record, sub-rows
for the first groups of columns, the last of these not blank, and then a main record and such
sub-rows for each continuation row. Defaults, whatever they are, fill in values only. -/
theorem record_shape (handler : Handler η) (config : MappingConfig) :
    (∀ (place : RowPlace) (state : MappingState η) (held : HeldRow) (columns : Columns),
      state.session.held = some held → state.session.columns = some columns →
        ∃ main subs ctx, (handler.release config place state).2.calls =
            state.calls.push (.record main subs ctx) ∧
          main.SameNames held.main ∧ List.Forall₂ Record.SameNames subs held.subs) ∧
    ∀ (reading : ReadingConfig) (source : String) (options : SourceOptions) (feed : Feed)
      (state : MappingState η),
      let read := (handler.sink config).readSource reading source options feed state
      let arrivals := handler.arrivals config (readScript reading.limits source options feed) state
      ∃ calls, read.state.calls.toList = state.calls.toList ++ calls ∧
        ∀ main subs ctx, .record main subs ctx ∈ calls →
          read.state.session.columns = some ctx.columns ∧
          ∃ before primary continuations after own,
            arrivals = before ++ primary :: (continuations ++ after) ∧
            (Delivery.record primary continuations).Kinded handler config ∧
            ctx = primary.context ∧
            subs = own ++ continuations.flatMap (·.joining config) ∧
            own.length = (primary.parts config).subs.length ∧
            ctx.columns.Shapes ⟨main, own⟩ ∧
            ∀ row ∈ continuations, ctx.columns.Shapes (row.parts config) := by
  refine ⟨fun place _ _ _ hheld hcolumns => release_sameNames place hheld hcolumns, ?_⟩
  intro reading source options feed state read arrivals
  obtain ⟨calls, hcalls, hrecords⟩ := readSource_records handler config reading source options feed state
  refine ⟨calls, hcalls, fun main subs ctx hcall => ?_⟩
  obtain ⟨before, primary, continuations, after, harrivals, hkinded, rfl, rfl, rfl⟩ :=
    hrecords main subs ctx hcall
  have hbound : ∀ row ∈ arrivals, read.state.session.columns = some row.columns := by
    intro row hrow
    rw [show read.state = _ from readSource_state reading source options feed state]
    exact columns_of_script hrow
  have harrivals' : arrivals = before ++ primary :: (continuations ++ after) := harrivals
  have hprimary := hbound primary (by simp [harrivals'])
  refine ⟨hprimary, before, primary, continuations, after, (handler.settled config primary).subs,
    harrivals, hkinded, rfl, rfl, length_settled_subs, shapes_settled hkinded.1.2, fun row hrow => ?_⟩
  have hcolumns : row.columns = primary.columns := by
    have hrowBound := hbound row (by simp [harrivals', hrow])
    rw [hprimary] at hrowBound
    exact (Option.some.inj hrowBound).symm
  have hshapes := Arrival.shapes_parts (hkinded.2 row hrow).2
  rwa [hcolumns] at hshapes

theorem record_shape_wider :
    let wider : Defaults := ⟨.ofFields ["v", "w"] ["9", "8"],
      [.ofFields ["x", "z"] ["7", "6"], .ofFields ["q"] ["5"], .ofFields ["u"] ["4"]]⟩
    let state : MappingState Unit := { handler := (), table := .insert {} "r" wider }
    let read := (lenient.sink .takingDefaults).readSource {} "a.csv" {}
      (.ofText "type,id,v,*x,y,*q\nr,a,,,1,\n,,3,2,,\n") state
    ∃ main subs ctx own joined,
      .record main subs ctx ∈ read.state.calls.toList ∧ main["v"]? = some "9" ∧
        subs = own ++ joined ∧ subs.length = 3 ∧
        Columns.Shapes ⟨["type", "id", "v"], [["x", "y"], ["q"]]⟩ ⟨main, own⟩ := by
  intro wider state read
  obtain ⟨calls, hcalls, hshape⟩ := (record_shape lenient .takingDefaults).2 {} "a.csv" {}
    (.ofText "type,id,v,*x,y,*q\nr,a,,,1,\n,,3,2,,\n") state
  have hnew : read.state.calls.toList = calls := hcalls
  have hsome : read.state.calls.toList.any (fun call =>
      match call with
      | .record main subs ctx => main["v"]? == some "9" && subs.length == 3 &&
          ctx.columns == ⟨["type", "id", "v"], [["x", "y"], ["q"]]⟩
      | _ => false) = true := by decide +kernel
  obtain ⟨call, hmem, hcall⟩ := List.any_eq_true.1 hsome
  cases call with
  | record main subs ctx =>
      simp only [Bool.and_eq_true, beq_iff_eq] at hcall
      obtain ⟨⟨hvalue, hlength⟩, hcolumns⟩ := hcall
      obtain ⟨-, _, _, _, _, own, _, _, _, hsubs, _, hshapes, _⟩ :=
        hshape main subs ctx (hnew ▸ hmem)
      rw [hcolumns] at hshapes
      exact ⟨main, subs, ctx, own, _, hmem, hvalue, hsubs, hlength, hshapes⟩
  | fileName name => cases hcall
  | header row => cases hcall
  | defaults category entry ctx => cases hcall

end Handler

end DefinitionFiles
