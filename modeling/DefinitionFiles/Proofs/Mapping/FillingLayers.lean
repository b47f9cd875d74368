import DefinitionFiles.Proofs.Defaults.Filling
import DefinitionFiles.Proofs.Mapping.Delivery

namespace DefinitionFiles

namespace DefaultsTable

/-- A table in which no entry holds an empty value. -/
def Full (table : DefaultsTable) : Prop :=
  ∀ category entry, table.get? category = some entry → entry.Full

theorem full_empty : Full {} := each_empty

end DefaultsTable

theorem Handler.full_useAll {η : Type} (handler : Handler η) (config : MappingConfig)
    (reading : ReadingConfig) (uses : List (Use η)) {state : MappingState η}
    (h : state.table.Full) : (handler.useAll config reading uses state).table.Full := by
  rw [useAll_table]
  exact DefaultsTable.Each.mergeAll (p := Defaults.Full) Defaults.full_empty
    (fun _ _ hlower hupper => hlower.merge hupper) Defaults.full_stated h _

namespace Defaults

/-- To fill from a merged entry is to fill from the later entry and then from the earlier one,
as long as the later one has no empty values, and the counts add up. To fill keeps all names and
the values that are there, leaves sub-rows that the entry has none for alone, and counts the empty
values that it has an entry for. What default rows state, and all that is read from them, has no
empty values, and from such an entry there is nothing left to fill a second time. -/
theorem fill_in_layers :
    (∀ (lower upper : Defaults) (parts : RecordParts), upper.Full →
      let merged := (lower.merge upper).fill parts.main parts.subs
      let first := upper.fill parts.main parts.subs
      let second := lower.fill first.main first.subs
      merged.main = second.main ∧ merged.subs = second.subs ∧
        merged.count = first.count + second.count) ∧
    (∀ (defaults : Defaults) (parts : RecordParts),
      let filled := defaults.fill parts.main parts.subs
      (∀ place (name own : String), (parts.part place)[name]? = some own → own ≠ "" →
        (filled.parts.part place)[name]? = some own) ∧
      (∀ place (name : String), (parts.part place)[name]? = some "" →
        (filled.parts.part place)[name]? = some ((defaults.part place).value name)) ∧
      (∀ place name, name ∈ filled.parts.part place ↔ name ∈ parts.part place) ∧
      filled.subs.length = parts.subs.length ∧
      (∀ i, defaults.subs.length ≤ i → filled.subs[i]? = parts.subs[i]?) ∧
      (∃ slots : Finset (Option Nat × String), slots.card = filled.count ∧
        ∀ place (name : String), (place, name) ∈ slots ↔
          (parts.part place)[name]? = some "" ∧ name ∈ defaults.part place) ∧
      (defaults.Full →
        let again := defaults.fill filled.main filled.subs
        again.main = filled.main ∧ again.subs = filled.subs ∧ again.count = 0)) ∧
    (∀ parts : RecordParts, (stated parts.main parts.subs).Full) ∧
    ∀ (η : Type) (handler : Handler η) (config : MappingConfig) (reading : ReadingConfig)
      (uses : List (Use η)) (state : MappingState η),
      state.table.Full → (handler.useAll config reading uses state).table.Full := by
  refine ⟨fun lower upper parts hupper => ?_, fun defaults parts => ?_, full_stated,
    fun η handler config reading uses state h => handler.full_useAll config reading uses h⟩
  · have hparts := lower.fill_merge hupper parts
    exact ⟨congrArg RecordParts.main hparts, congrArg RecordParts.subs hparts,
      lower.count_fill_merge hupper parts⟩
  · intro filled
    have hpart : ∀ place, filled.parts.part place = (parts.part place).fill (defaults.part place) :=
      defaults.part_fill parts
    refine ⟨fun place name own hvalue hown => ?_, fun place name hvalue => ?_, fun place name => ?_,
      length_fillSubs _ _, fun i hi => getElem?_fillSubs_of_length_le _ _ hi,
      defaults.exists_openSlots parts, fun hfull => ?_⟩
    · rw [hpart, Record.getElem?_fill_of_ne_empty hvalue hown]
    · rw [hpart, Record.getElem?_fill_of_empty hvalue]
    · rw [hpart, Record.mem_fill]
    · -- an entry merged with itself is the entry, so its second layer adds nothing
      have hparts := defaults.fill_merge hfull parts
      have hcount := defaults.count_fill_merge hfull parts
      rw [merge_self] at hparts hcount
      exact ⟨congrArg RecordParts.main hparts.symm, congrArg RecordParts.subs hparts.symm,
        Nat.left_eq_add.1 hcount⟩

theorem fill_in_layers_empty :
    let lower : Defaults :=
      ⟨.ofList [("name", ""), ("unit", "C")], [.ofList [("part", "s")], .ofList [("part", "m")]]⟩
    let upper := stated (.ofList [("note", ""), ("unit", "K")]) [.ofList [("part", "t")]]
    let main : Record := .ofList [("name", ""), ("note", ""), ("type", "r"), ("unit", "")]
    let subs : List Record := List.replicate 3 (.ofList [("part", "")])
    let first := upper.fill main subs
    let second := lower.fill first.main first.subs
    let merged := (lower.merge upper).fill main subs
    let again := upper.fill first.main first.subs
    let read := Handler.lenient.useAll .takingDefaults {}
      [.read "parts.csv" {} (.ofText "type,unit,note\n*r,,n\n")] { handler := () }
    upper.Full ∧ first.count = 2 ∧ second.count = 2 ∧ merged.count = 4 ∧
      merged.main = second.main ∧ merged.subs = second.subs ∧
      merged.main = .ofList [("name", ""), ("note", ""), ("type", "r"), ("unit", "K")] ∧
      merged.subs = ["t", "m", ""].map (fun value => .ofList [("part", value)]) ∧
      again.main = first.main ∧ again.count = 0 ∧ read.table.Full ∧
      read.table.get? "r" = some ⟨.ofList [("note", "n"), ("type", "r")], []⟩ := by
  intro lower upper main subs first second merged again read
  have hupper : upper.Full := full_stated ⟨_, _⟩
  obtain ⟨hlayers, hfills, -, hreads⟩ := fill_in_layers
  obtain ⟨hmain, hsubs, hcount⟩ := hlayers lower upper ⟨main, subs⟩ hupper
  obtain ⟨-, -, -, -, -, -, hagain⟩ := hfills upper ⟨main, subs⟩
  have hfirst : first.count = 2 := by decide +kernel
  have hsecond : second.count = 2 := by decide +kernel
  exact ⟨hupper, hfirst, hsecond, hcount.trans (by rw [hfirst, hsecond]), hmain, hsubs,
    by decide +kernel, by decide +kernel, (hagain hupper).1, (hagain hupper).2.2,
    hreads Unit .lenient .takingDefaults {} _ _ DefaultsTable.full_empty, by decide +kernel⟩

end Defaults

end DefinitionFiles
