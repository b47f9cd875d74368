import DefinitionFiles.Proofs.Columns.Header
import DefinitionFiles.Proofs.Mapping.Registry
import DefinitionFiles.Proofs.Mapping.Values
import DefinitionFiles.Proofs.Row.Marked

namespace DefinitionFiles

open Text

variable {η : Type}

namespace Row

theorem isDefault_marked (first : String) (others : Row) :
    isDefault (marked first :: others) = true :=
  congrArg Prod.fst (splitMark_defaultMark first)

theorem withoutMark_marked (first : String) (others : Row) :
    withoutMark (marked first :: others) = first :: others :=
  congrArg (· :: others) (congrArg Prod.snd (splitMark_defaultMark first))

end Row

namespace Arrival

def withRow (arrival : Arrival η) (row : Row) : Arrival η := { arrival with row }

variable {arrival : Arrival η} {first : String} {others : Row}

theorem assigned_withRow (config : MappingConfig) (harrival : arrival.row = marked first :: others)
    (hdata : Row.isDefault (first :: others) = false) :
    (arrival.withRow (first :: others)).assigned config = arrival.assigned config := by
  have hplain : (arrival.withRow (first :: others)).fields = first :: others := by
    simp [fields, withRow, hdata]
  have hmarked : arrival.fields = first :: others := by
    rw [fields, harrival, Row.isDefault_marked, if_pos rfl, Row.withoutMark_marked]
  rw [assigned, assigned, hplain, hmarked]
  rfl

theorem parts_withRow (config : MappingConfig) (harrival : arrival.row = marked first :: others)
    (hdata : Row.isDefault (first :: others) = false) :
    (arrival.withRow (first :: others)).parts config = arrival.parts config := by
  rw [parts, parts, assigned_withRow config harrival hdata]

end Arrival

namespace Handler

/-- A handler that leaves the choice of categories to the records. -/
structure UsualCategories (handler : Handler η) : Prop where
  category : ∀ record ctx own, handler.category record ctx own = ctx.usualCategory record
  categories : ∀ record ctx own, handler.categories record ctx own = [ctx.usualCategory record]

variable {handler : Handler η} {config : MappingConfig}

theorem readRow_of_read {limits : Limits} {position next : Position} {row : Row}
    (hread : readLogicalRow limits position = ⟨.ok true, row, next⟩) (hne : row ≠ [])
    (source : String) (verbose : Bool) (state : MappingState η) :
    let step := (handler.sink config).readRow limits source verbose position state
    let performed := (handler.sink config).perform (.row row ⟨source, next.line, verbose⟩) state
    step.outcome = performed.1.map (fun _ => true) ∧ step.state = performed.2 := by
  have hempty : row.isEmpty = false := by simpa using hne
  simp only [Sink.readRow, Sink.accept, hread, hempty]
  exact ⟨rfl, rfl⟩

theorem getElem?_part_merged (table : DefaultsTable) (category : String) (parts : RecordParts)
    (part : Option Nat) (name : String) :
    ((table.merged category (.stated parts.main parts.subs)).part part)[name]? =
      (parts.part part).withoutEmpty[name]?.or (((table.get? category).getD {}).part part)[name]? := by
  rw [DefaultsTable.merged, Defaults.part_merge, Defaults.part_stated, Record.getElem?_overlay]

section

variable {first : String} {others : Row} {place : RowPlace} {state : MappingState η}
  {arrival : Arrival η}
  (harrival : handler.arrival? (.row (marked first :: others) place) state = some arrival)
  (hdata : Row.isDefault (first :: others) = false) (hconfig : config.takesDefaults = true)
  (hfits : (arrival.withRow (first :: others)).Fits config)

include harrival

theorem row_of_marked : arrival.row = marked first :: others ∧ arrival.place = place := by
  obtain ⟨hrow, hplace⟩ := SinkCall.row.inj (arrival?_eq_some {} harrival).1
  exact ⟨hrow.symm, hplace.symm⟩

include hconfig

theorem perform_marked_error {error : ReadFailure}
    (h : (handler.released config arrival).1 = .error error) :
    let performed := (handler.sink config).perform (.row (marked first :: others) place) state
    performed.1 = .error error ∧ performed.2.table = state.table := by
  have hafter := table_of_takes (takes_of_arrival? config harrival)
  obtain ⟨-, -, htable, -, hbound⟩ := arrival?_eq_some config harrival
  obtain ⟨hrow, hplace⟩ := row_of_marked harrival
  have hregisters : handler.registers config arrival = false := by
    simp [registers, h, Except.isOk, Except.toBool]
  rw [hregisters, if_neg Bool.false_ne_true, htable] at hafter
  refine ⟨?_, hafter⟩
  rw [hrow, hplace] at hbound
  cases hrelease : handler.release config place arrival.state with
  | mk outcome released =>
      obtain rfl : outcome = .error error := by rwa [Handler.released, hplace, hrelease] at h
      simp only [Sink.perform, sink, hbound, takeBound, Row.isDefault_marked, hconfig, if_true,
        hrelease]

include hdata hfits

/-- What a marked row states is what the row has without the mark. -/
theorem perform_marked_ok (h : (handler.released config arrival).1 = .ok ()) :
    let performed := (handler.sink config).perform (.row (marked first :: others) place) state
    let parts := (arrival.withRow (first :: others)).parts config
    let keyed := parts.main.fill arrival.state.session.fileDefaults
    let category := handler.category keyed arrival.context (handler.released config arrival).2.handler
    performed.2.table = state.table.merge category (.stated parts.main parts.subs) := by
  have hafter := table_of_takes (takes_of_arrival? config harrival)
  obtain ⟨hrow, -⟩ := row_of_marked harrival
  have hassigned := Arrival.assigned_withRow config hrow hdata
  have hok : (arrival.assigned config).isOk = true := by
    rw [← hassigned, hfits]
    rfl
  have hregisters : handler.registers config arrival = true := by
    rw [registers, hrow, Row.isDefault_marked, hconfig, h, hok]
    rfl
  rw [hregisters, if_pos rfl, (arrival?_eq_some config harrival).2.2.1] at hafter
  rw [Arrival.parts_withRow config hrow hdata]
  exact hafter

end

/-- The mark of a default row stands for nothing else, if the text after it begins neither with a
blank nor with a quote mark. The row is then what it is as a data row: the same values, of which
those that are not empty are laid over the entry of a category, and the category that its handler
tells from them. So a data row with the same text gets its defaults from that entry, if the
handler leaves the choice to the records. -/
theorem readRow_marked (handler : Handler η) {config : MappingConfig}
    (hconfig : config.takesDefaults = true) {limits : Limits} {text : String}
    (hlength : contentLength (encodeUtf8 (marked text)) ≤ limits.lineLength)
    (htext : ∀ c ∈ text.toList.head?, isBlank c = false ∧ c ≠ quoteMark) {line : Nat}
    {fingerprint : Fingerprint} {alone : RowRead}
    (halone : alone = readLogicalRow limits ⟨[.line (encodeUtf8 text)], line, fingerprint⟩)
    (hread : alone.outcome = .ok true) (hfirst : ∃ field ∈ alone.row.head?, field ≠ "")
    (hdata : alone.row.isDefault = false) {position : Position} {rest : List LineRead}
    (hposition : position = ⟨.line (encodeUtf8 (marked text)) :: rest, line, fingerprint⟩)
    (source : String) (verbose : Bool) (state : MappingState η) {arrival : Arrival η}
    (harrival : handler.arrival? (.row (readLogicalRow limits position).row
      ⟨source, line + 1, verbose⟩) state = some arrival)
    (hfits : (arrival.withRow alone.row).Fits config) :
    let step := (handler.sink config).readRow limits source verbose position state
    let plain := arrival.withRow alone.row
    let parts := plain.parts config
    let released := handler.released config arrival
    let keyed := parts.main.fill arrival.state.session.fileDefaults
    let category := handler.category keyed plain.context released.2.handler
    let before := (state.table.get? category).getD {}
    (∀ error, released.1 = .error error →
      step.outcome = .error error ∧ step.state.table = state.table) ∧
    (released.1 = .ok () → ∃ entry : Defaults,
      (∀ other, step.state.table.get? other =
        if category = other then some entry else state.table.get? other) ∧
      (∀ (part : Option Nat) (name : String), (entry.part part)[name]? =
        (parts.part part).withoutEmpty[name]?.or (before.part part)[name]?) ∧
      (handler.UsualCategories → category = plain.context.usualCategory keyed ∧
        ∀ place own, step.state.table.first? (handler.categories keyed
          (step.state.session.context plain.columns place) own) = some entry)) ∧
    ∀ part name, trim ((parts.part part).value name) = (parts.part part).value name := by
  subst hposition
  obtain ⟨first, hhead, hfirst⟩ := hfirst
  obtain ⟨others, hrow⟩ := List.head?_eq_some_iff.1 hhead
  obtain ⟨hquote, hblanks⟩ := head?_trim_of_start htext
  have hmarked := readLogicalRow_marked hquote (halone ▸ hread) (halone ▸ hrow) hfirst hlength rest
  rw [hblanks, String.empty_append] at hmarked
  have htrimmed : ∀ field ∈ alone.row, trim field = field := by
    obtain ⟨segments, -, -, hsegments, -⟩ :=
      exists_cut_of_read (halone ▸ hread) (halone ▸ hrow ▸ List.cons_ne_nil first others)
    rw [halone, hsegments, List.forall_mem_map]
    exact fun segment _ => segment.trim_field
  clear halone
  rw [hmarked] at harrival
  rw [hrow] at hdata hfits htrimmed ⊢
  intro step plain parts released keyed category before
  obtain ⟨houtcome, hstate⟩ : step.outcome = _ ∧ step.state = _ :=
    readRow_of_read hmarked (List.cons_ne_nil _ _) source verbose state
  refine ⟨fun error herror => ?_, fun hok => ?_, fun part name => ?_⟩
  · obtain ⟨hrefused, htable⟩ := perform_marked_error harrival hconfig herror
    rw [houtcome, hstate, hrefused]
    exact ⟨rfl, htable⟩
  · have htable : step.state.table =
        state.table.merge category (.stated parts.main parts.subs) := by
      rw [hstate]
      exact perform_marked_ok harrival hdata hconfig hfits hok
    have hentry : ∀ other, step.state.table.get? other =
        if category = other then some (state.table.merged category (.stated parts.main parts.subs))
        else state.table.get? other := fun other => by rw [htable, DefaultsTable.get?_merge]
    refine ⟨_, hentry, getElem?_part_merged state.table category parts, fun husual => ?_⟩
    have hcategory : category = plain.context.usualCategory keyed := husual.category _ _ _
    refine ⟨hcategory, fun place own => ?_⟩
    -- all that a category is told from is known of the source and stays as it is
    have hsame : (step.state.session.context plain.columns place).usualCategory keyed =
        category := by
      rw [hcategory, hstate, session_of_takes (takes_of_arrival? config harrival)]
      rfl
    rw [husual.categories, hsame, DefaultsTable.first?, List.findSome?_cons, hentry, if_pos rfl]
  · have hfields : ∀ field ∈ plain.fields, trim field = field := by
      rw [Arrival.fields, if_neg (by simp [plain, Arrival.withRow, hdata])]
      exact htrimmed
    have hvalues : (plain.parts config).AllValues (fun value => trim value = value) :=
      Arrival.allValues_parts (by decide) config hfields
    exact hvalues.part (by decide) part name

theorem readRow_marked_lenient :
    let session : Session := { columns := some ⟨["type", "unit"], [["level"]]⟩ }
    let state : MappingState Unit := { handler := (), session }
    let position : Position := ⟨[.line (encodeUtf8 (marked "r,, 2\n"))], 1, {}⟩
    let step := (lenient.sink .takingDefaults).readRow {} "parts.csv" false position state
    ∃ entry : Defaults, step.state.table.first? ["r"] = some entry ∧
      (entry.part none)["type"]? = some "r" ∧ (entry.part none)["unit"]? = none ∧
      (entry.part (some 0))["level"]? = some "2" := by
  intro session state position step
  let alone := readLogicalRow {} ⟨[.line (encodeUtf8 "r,, 2\n")], 1, {}⟩
  let arrival : Arrival Unit := ⟨["*r", "", "2"], ⟨"parts.csv", 2, false⟩, state⟩
  have hrow : alone.row = ["r", "", "2"] := by decide +kernel
  have hread : alone.outcome = .ok true := by
    have hok : alone.outcome.toOption = some true := by decide +kernel
    cases ho : alone.outcome with
    | ok filled => simpa [ho, Except.toOption] using hok
    | error error => simp [ho, Except.toOption] at hok
  have harrival : lenient.arrival? (.row (readLogicalRow {} position).row
      ⟨"parts.csv", 1 + 1, false⟩) state = some arrival := by
    have hmarked : (readLogicalRow {} position).row = ["*r", "", "2"] := by decide +kernel
    rw [hmarked]
    rfl
  have hfits : (arrival.withRow alone.row).Fits .takingDefaults := by
    rw [hrow]
    rfl
  have hstart : ∀ c ∈ "r,, 2\n".toList.head?, isBlank c = false ∧ c ≠ quoteMark := by
    rintro c ⟨⟩
    decide
  have hfirst : ∃ field ∈ alone.row.head?, field ≠ "" := ⟨"r", by rw [hrow]; rfl, by decide⟩
  obtain ⟨-, hregistered, -⟩ := readRow_marked lenient rfl (by decide +kernel) hstart rfl hread
    hfirst (by rw [hrow]; decide) rfl "parts.csv" false state harrival hfits
  obtain ⟨entry, hentry, hvalues, -⟩ := hregistered rfl
  rw [hrow] at hentry hvalues
  refine ⟨entry, ?_, ?_, ?_, ?_⟩
  · rw [DefaultsTable.first?, List.findSome?_cons, hentry, if_pos (by decide +kernel)]
  · rw [hvalues none]
    decide +kernel
  · rw [hvalues none]
    decide +kernel
  · rw [hvalues (some 0)]
    decide +kernel

theorem readRow_marked_blank :
    let session : Session := { columns := some ⟨["type", "unit"], []⟩ }
    let state : MappingState Unit := { handler := (), session }
    let alone := readLogicalRow {} ⟨[.line (encodeUtf8 " r,C\n")], 1, {}⟩
    let position : Position := ⟨[.line (encodeUtf8 (marked " r,C\n"))], 1, {}⟩
    let step := (lenient.sink .takingDefaults).readRow {} "parts.csv" false position state
    let plain : Arrival Unit := ⟨alone.row, ⟨"parts.csv", 2, false⟩, state⟩
    let keyed := (plain.parts .takingDefaults).main.fill session.fileDefaults
    alone.outcome.toOption = some true ∧ alone.row = ["r", "C"] ∧ plain.Fits .takingDefaults ∧
      step.outcome.toOption = some true ∧ plain.context.usualCategory keyed = "r" ∧
      step.state.table.categories = [" r"] := by
  intro session state alone position step plain keyed
  refine ⟨by decide +kernel, by decide +kernel, ?_, by decide +kernel, by decide +kernel,
    by decide +kernel⟩
  have hrow : alone.row = ["r", "C"] := by decide +kernel
  simp only [plain, hrow]
  rfl

end Handler

end DefinitionFiles
