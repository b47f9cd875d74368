import DefinitionFiles.Command.Run
import DefinitionFiles.Proofs.Command.Gathered

namespace DefinitionFiles

theorem Row.length_withoutMark (row : Row) : row.withoutMark.length = row.length := by
  cases row <;> rfl

def verdict : Option ReadFailure → Except ReadFailure Unit
  | none => .ok ()
  | some failure => .error failure

namespace Columns

def misfit? (columns : Columns) (config : MappingConfig) (row : Row) : Option Refusal :=
  if columns.accepts config.width row.length then none
  else some (.malformed (.fieldCount row.length columns.size))

def refusal? (columns : Columns) (config : MappingConfig) (row : Row) : Option Refusal :=
  if row.isDefault && !config.takesDefaults then some .defaultsUnsupported
  else columns.misfit? config row

end Columns

namespace Command

variable (required : List String) (config : MappingConfig)

theorem release_gatherer (place : RowPlace) (state : MappingState Gathered) :
    ((gatherer required).release config place state).1 = .ok () := by
  simp only [Handler.release]
  split
  · rfl
  · split <;> rfl

variable {required config}

theorem takeDefaultRow_gatherer {place : RowPlace} {row : Row} {state : MappingState Gathered}
    {columns : Columns} (hcolumns : state.session.columns = some columns) :
    ((gatherer required).takeDefaultRow config place row state).1 =
      verdict ((columns.misfit? config row).map place.refuse) := by
  simp only [Handler.takeDefaultRow, Session.assign, hcolumns, Columns.assign, Columns.misfit?]
  cases columns.accepts config.width row.length <;> rfl

theorem takeDataRow_gatherer {place : RowPlace} {row : Row} {state : MappingState Gathered}
    {columns : Columns} (hcolumns : state.session.columns = some columns) :
    ((gatherer required).takeDataRow config place row state).1 =
      verdict ((columns.misfit? config row).map place.refuse) := by
  simp only [Handler.takeDataRow, Session.assign, hcolumns, Columns.assign, Columns.misfit?]
  cases columns.accepts config.width row.length with
  | false => rfl
  | true =>
      have hreleased := release_gatherer required config place state
      generalize (gatherer required).release config place state = released at *
      obtain ⟨outcome, after⟩ := released
      obtain rfl : outcome = .ok () := hreleased
      rfl

theorem perform_row_gatherer {row : Row} {place : RowPlace} {state : MappingState Gathered}
    {columns : Columns} (hcolumns : state.session.columns = some columns) :
    (((gatherer required).sink config).perform (.row row place) state).1 =
      verdict ((columns.refusal? config row).map place.refuse) := by
  have hreleased := release_gatherer required config place state
  have hsession := (gatherer required).release_session config place state
  simp only [Sink.perform, Handler.sink, Handler.takeRow, hcolumns, Handler.takeBound,
    Columns.refusal?]
  cases row.isDefault with
  | false => exact takeDataRow_gatherer hcolumns
  | true =>
      cases config.takesDefaults with
      | false => rfl
      | true =>
          generalize (gatherer required).release config place state = released at *
          obtain ⟨outcome, after⟩ := released
          obtain rfl : outcome = .ok () := hreleased
          have hbound : after.session.columns = some columns := by
            rw [show after.session = _ from hsession, hcolumns]
          have htaken : ((gatherer required).takeDefaultRow config place row.withoutMark after).1 =
              _ := takeDefaultRow_gatherer hbound
          rwa [Columns.misfit?, Row.length_withoutMark] at htaken

def rowsFailure? (required : List String) (config : MappingConfig) :
    List PlacedRow → Option ReadFailure
  | [] => none
  | header :: rows =>
      match columnsFor required header.row with
      | .error refusal => some (header.place.refuse refusal)
      | .ok columns =>
          rows.findSome? fun row => (columns.refusal? config row.row).map row.place.refuse

/-- The rows that are taken under some columns: those before the first that is refused. -/
def takenRows (config : MappingConfig) (columns : Columns) (rows : List PlacedRow) :
    List PlacedRow :=
  rows.takeWhile fun row => (columns.refusal? config row.row).isNone

def statedCategory (session : Session) (columns : Columns) (row : PlacedRow) : String :=
  (session.context columns row.place).usualCategory
    ((Record.ofFields columns.main row.row.withoutMark).fill session.fileDefaults)

theorem fits_of_refusal? {arrival : Arrival Gathered}
    (h : arrival.columns.refusal? config arrival.row = none) : arrival.Fits config := by
  have hlength : arrival.fields.length = arrival.row.length := by
    simp only [Arrival.fields]
    split
    · exact Row.length_withoutMark _
    · rfl
  simp only [Columns.refusal?, Columns.misfit?] at h
  split at h
  · cases h
  · split at h
    · rename_i haccepts
      simp [Arrival.Fits, Arrival.parts, Arrival.assigned, Columns.assign, hlength, haccepts]
    · cases h

theorem registers_gatherer {arrival : Arrival Gathered} :
    (gatherer required).registers config arrival =
      (arrival.row.isDefault && (arrival.columns.refusal? config arrival.row).isNone) := by
  have hreleased : ((gatherer required).released config arrival).1 = .ok () := release_gatherer _ _ _ _
  have hlength : arrival.row.withoutMark.length = arrival.row.length := Row.length_withoutMark _
  simp only [Handler.registers, hreleased, Columns.refusal?, Columns.misfit?, Arrival.assigned,
    Arrival.fields]
  cases arrival.row.isDefault with
  | false => rfl
  | true =>
      cases config.takesDefaults with
      | false => rfl
      | true =>
          simp only [if_true, Columns.assign, hlength]
          cases arrival.columns.accepts config.width arrival.row.length <;> rfl

theorem category_of_registration {arrival : Arrival Gathered}
    (hmark : arrival.row.isDefault = true) (hfits : arrival.Fits config) :
    ((gatherer required).registration config arrival).category =
      statedCategory arrival.state.session arrival.columns arrival.placed := by
  have hfields : arrival.fields = arrival.row.withoutMark := if_pos hmark
  have hparts : (arrival.parts config).main =
      Record.ofFields arrival.columns.main arrival.row.withoutMark := by
    rw [Arrival.parts_eq hfits, hfields]
  simp only [Handler.registration, hparts]
  rfl

variable (required config)

theorem run_rows_gatherer {columns : Columns} (rows : List PlacedRow)
    {state : MappingState Gathered} (hcolumns : state.session.columns = some columns) :
    let calls := rows.map PlacedRow.call
    (((gatherer required).sink config).run calls state).1 =
        verdict (rows.findSome? fun row => (columns.refusal? config row.row).map row.place.refuse) ∧
      ((gatherer required).registrations config
          ((gatherer required).arrivals config calls state)).map Registration.category =
        ((takenRows config columns rows).filter (·.row.isDefault)).map
          (statedCategory state.session columns) := by
  induction rows generalizing state with
  | nil => exact ⟨rfl, rfl⟩
  | cons row rows ih =>
      let arrival : Arrival Gathered := ⟨row.row, row.place, state⟩
      have harrival : (gatherer required).arrival? row.call state = some arrival := by
        simp [PlacedRow.call, Handler.arrival?, hcolumns, arrival]
      have hbound : arrival.columns = columns := by simp [Arrival.columns, arrival, hcolumns]
      have hsession := Handler.session_of_takes (Handler.takes_of_arrival? config harrival)
      have hperform : (((gatherer required).sink config).perform row.call state).1 =
          verdict ((columns.refusal? config row.row).map row.place.refuse) :=
        perform_row_gatherer hcolumns
      have hregisters : (gatherer required).registers config arrival =
          (row.row.isDefault && (columns.refusal? config row.row).isNone) := by
        rw [registers_gatherer, hbound]
      simp only [List.map_cons, Sink.run, Handler.arrivals, harrival, Option.toList_some,
        Handler.registrations_append, List.map_append, List.findSome?_cons, takenRows]
      rw [List.takeWhile_cons]
      generalize ((gatherer required).sink config).perform row.call state = step at *
      obtain ⟨outcome, after⟩ := step
      cases hrefusal : columns.refusal? config row.row with
      | some refusal =>
          obtain rfl : outcome = .error (row.place.refuse refusal) := by
            rw [show outcome = _ from hperform, hrefusal]
            rfl
          simp [Handler.registrations, hregisters, hrefusal, verdict]
      | none =>
          obtain rfl : outcome = .ok () := by
            rw [show outcome = _ from hperform, hrefusal]
            rfl
          have hafter : after.session.columns = some columns := by
            rw [show after.session = _ from hsession]
            exact hcolumns
          have hstated (row : PlacedRow) : statedCategory after.session columns row =
              statedCategory state.session columns row := by
            rw [show after.session = _ from hsession]
            rfl
          obtain ⟨hran, hcategories⟩ := ih hafter
          refine ⟨hran, ?_⟩
          have hfits : arrival.Fits config := fits_of_refusal? (by rw [hbound]; exact hrefusal)
          simp only [hcategories, funext hstated]
          cases hmark : row.row.isDefault with
          | false => simp [Handler.registrations, hregisters, hmark, takenRows]
          | true =>
              have hcategory : ((gatherer required).registration config arrival).category = _ :=
                category_of_registration hmark hfits
              rw [hbound] at hcategory
              simp [Handler.registrations, hregisters, hmark, hrefusal, takenRows, hcategory,
                Arrival.placed, arrival]

def takenCategories (required : List String) (config : MappingConfig) (session : Session) :
    List PlacedRow → List String
  | [] => []
  | header :: rows =>
      match columnsFor required header.row with
      | .error _ => []
      | .ok columns =>
          ((takenRows config columns rows).filter (·.row.isDefault)).map
            (statedCategory session columns)

theorem run_placed_gatherer (rows : List PlacedRow) {state : MappingState Gathered}
    (hcolumns : state.session.columns = none) :
    let calls := rows.map PlacedRow.call
    (((gatherer required).sink config).run calls state).1 =
        verdict (rowsFailure? required config rows) ∧
      ((gatherer required).registrations config
          ((gatherer required).arrivals config calls state)).map Registration.category =
        takenCategories required config state.session rows := by
  cases rows with
  | nil => exact ⟨rfl, rfl⟩
  | cons header rows =>
      have hfirst := (gatherer required).run_first config hcolumns header rows
      cases hfor : columnsFor required header.row with
      | error refusal =>
          have hbound : ((gatherer required).bindColumns header.place header.row state).1 =
              .error (header.place.refuse refusal) := by
            simp [Handler.bindColumns, gatherer, Handler.columnNames, hfor, bind, Except.bind]
          simp only [hbound] at hfirst
          obtain ⟨hran, harrivals⟩ := Prod.mk.inj hfirst
          refine ⟨?_, ?_⟩
          · rw [hran]
            simp [rowsFailure?, hfor, verdict]
          · rw [harrivals]
            simp [takenCategories, hfor, Handler.registrations]
      | ok columns =>
          let bound := ((gatherer required).bindColumns header.place header.row state).2
          have hbound : ((gatherer required).bindColumns header.place header.row state).1 =
              .ok false ∧ bound.session = { state.session with columns := some columns } := by
            simp [bound, Handler.bindColumns, gatherer, Handler.columnNames, hfor, bind, Except.bind,
              pure, Except.pure, MappingState.call, MappingState.withHandler]
          simp only [hbound.1, Bool.false_eq_true, if_false] at hfirst
          obtain ⟨hran, harrivals⟩ := Prod.mk.inj hfirst
          have hcolumns' : bound.session.columns = some columns := by rw [hbound.2]
          obtain ⟨hrows, hcategories⟩ := run_rows_gatherer required config rows hcolumns'
          refine ⟨?_, ?_⟩
          · rw [hran, hrows, rowsFailure?, hfor]
          · rw [harrivals, hcategories, hbound.2, takenCategories, hfor]
            rfl

/-- How the reading of a source ends, and the categories that it registers, whatever was read
before. -/
theorem run_script_gatherer (limits : Limits) (source : String) (options : SourceOptions)
    (feed : Feed) (state : MappingState Gathered) :
    let placed := placedRows source options.verbose (rowReads limits (.ofFeed limits feed))
    let script := readScript limits source options feed
    (((gatherer required).sink config).run script state).1 =
        verdict (rowsFailure? required config placed) ∧
      ((gatherer required).registrations config
          ((gatherer required).arrivals config script state)).map Registration.category =
        takenCategories required config ((gatherer required).start source options state).session
          placed := by
  intro placed script
  let started := (gatherer required).start source options state
  let finish := finishCalls source options (rowReads limits (.ofFeed limits feed))
  have hstarted : started.session.columns = none := by
    simp only [started, Handler.start]
    split <;> rfl
  obtain ⟨hran, hcategories⟩ :=
    run_placed_gatherer required config placed hstarted
  have hfinish (state : MappingState Gathered) :
      (((gatherer required).sink config).run finish state).1 = .ok () ∧
        (gatherer required).arrivals config finish state = [] := by
    simp only [finish, finishCalls]
    split
    · exact ⟨rfl, rfl⟩
    · have hreleased (place : RowPlace) : (((gatherer required).sink config).perform
          (.finish place) state).1 = .ok () :=
        release_gatherer required config place state
      simp [Sink.run, Handler.arrivals, Handler.arrival?, hreleased]
  have hscript : ((gatherer required).sink config).run script state =
      ((gatherer required).sink config).run (placed.map PlacedRow.call ++ finish) started := rfl
  have harrivals : (gatherer required).arrivals config script state =
      (gatherer required).arrivals config (placed.map PlacedRow.call ++ finish) started := rfl
  rw [hscript, harrivals, Sink.run_append, Handler.arrivals_append]
  generalize ((gatherer required).sink config).run (placed.map PlacedRow.call) started = ran at *
  obtain ⟨outcome, after⟩ := ran
  cases outcome with
  | error error =>
      refine ⟨hran, ?_⟩
      rw [List.append_nil]
      exact hcategories
  | ok _ =>
      obtain ⟨hfinished, hnone⟩ := hfinish after
      refine ⟨hfinished.trans hran, ?_⟩
      rw [hnone, List.append_nil]
      exact hcategories

def fileRows (path : String) (verbose : Bool) : FileState → List PlacedRow
  | .file content _ => placedRows path verbose (rowReads {} (.ofFeed {} content))
  | .directory | .unreadable _ => []

def namedSession (path : String) : Session :=
  match DeviceName.parse ((Path.fileName? path).getD path) with
  | none => {}
  | some device => { fileDefaults := device.values, device := some device }

theorem start_session (path : String) (verbose : Bool) (state : MappingState Gathered) :
    ((gatherer required).start path { verbose } state).session = namedSession path := by
  simp only [Handler.start, namedSession, gatherer, Option.getD_none]
  cases DeviceName.parse ((Path.fileName? path).getD path) with
  | none => rfl
  | some device => simp [Record.empty_overlay]

def fileFailure? (required : List String) (config : MappingConfig) (verbose : Bool) (path : String) :
    FileState → Option ReadFailure
  | .unreadable reason => some (.unavailable path reason)
  | .directory => some (.unavailable path "is a directory")
  | .file content _ =>
      let reads := rowReads {} (.ofFeed {} content)
      (rowsFailure? required config (placedRows path verbose reads)).or (textFailure? path reads)

def fileFingerprint : FileState → Fingerprint
  | .file content _ => (endOfReads (rowReads {} (.ofFeed {} content))).fingerprint
  | .directory | .unreadable _ => {}

/-- The lines on a file: whether it was read, and how many data rows and default rows it has. -/
def account (required : List String) (config : MappingConfig) (verbose : Bool) (path : String)
    (found : FileState) : List String :=
  let rows := (fileRows path verbose found).tail
  if (fileFailure? required config verbose path found).isSome then [failed path]
  else [passed path, s!"  Rows: {rows.countP (!·.row.isDefault)}",
    s!"  Defaults: {rows.countP (·.row.isDefault)}", s!"  Hash: {(fileFingerprint found).display}"]

/-- The categories of the default rows that are taken of a file, read whole or not. -/
def fileCategories (required : List String) (config : MappingConfig) (verbose : Bool)
    (path : String) (found : FileState) : List String :=
  takenCategories required config (namedSession path) (fileRows path verbose found)

variable (verbose : Bool)

theorem readPath_outcome (path : String) (found : FileState) (state : MappingState Gathered) :
    let outcome := (((gatherer required).sink config).readPath {} path { verbose } found state).outcome
    match fileFailure? required config verbose path found with
    | some failure => outcome = .error failure
    | none => ∃ summary, outcome = .ok summary ∧ summary.fingerprint = fileFingerprint found := by
  cases found with
  | unreadable reason => rfl
  | directory => rfl
  | file content modified =>
      have hran := (run_script_gatherer required config {} path { verbose } content state).1
      have hread := (Sink.readToEnd_eq_run (Handler.sink_keepsRows (gatherer required) config) {}
        path { verbose } content state).2
      rw [hran] at hread
      simp only [Sink.readPath, Sink.readSource, fileFailure?, fileFingerprint]
      cases hrows : rowsFailure? required config
          (placedRows path verbose (rowReads {} (.ofFeed {} content))) with
      | some failure =>
          simp only [hrows, verdict] at hread
          simp [hread, Except.map]
      | none =>
          simp only [hrows, verdict] at hread
          cases htext : textFailure? path (rowReads {} (.ofFeed {} content)) with
          | some failure =>
              simp only [htext] at hread
              simp [hread, Except.map]
          | none =>
              simp only [htext] at hread
              simp [hread, Except.map]

theorem readPath_counts {path : String} {found : FileState} {state : MappingState Gathered}
    {summary : SourceSummary}
    (h : (((gatherer required).sink config).readPath {} path { verbose } found state).outcome =
      .ok summary) :
    let after := (((gatherer required).sink config).readPath {} path { verbose } found state).state
    let rows := (fileRows path verbose found).tail
    after.handler.latest.length = state.handler.latest.length + rows.countP (!·.row.isDefault) ∧
      after.handler.defaults = state.handler.defaults + rows.countP (·.row.isDefault) := by
  cases found with
  | unreadable reason => cases h
  | directory => cases h
  | file content modified =>
      simp only [Sink.readPath] at h
      cases hread : (((gatherer required).sink config).readSource {} path { verbose } content
        state).outcome with
      | error failure => simp [hread, Except.map] at h
      | ok read => exact readSource_counts hread

theorem readPath_categories (path : String) (found : FileState) (state : MappingState Gathered)
    (category : String) :
    let after := (((gatherer required).sink config).readPath {} path { verbose } found state).state
    category ∈ after.table.categories ↔ category ∈ state.table.categories ∨
      category ∈ fileCategories required config verbose path found := by
  intro after
  have htable : after.table = _ := Handler.use_table {} (.readPath path { verbose } found) state
  rw [htable, DefaultsTable.mem_categories_mergeAll]
  cases found with
  | unreadable reason => rfl
  | directory => rfl
  | file content modified =>
      have hran := (run_script_gatherer required config {} path { verbose } content state).2
      rw [Use.script, hran, start_session]
      rfl

theorem checkFile_step (files : Files) (run : CheckRun) (path : String) :
    let next := checkFile files config required { verbose } run path
    let failure := (fileFailure? required config verbose path (files path)).toList
    next.report.output.toList = run.report.output.toList ++
        account required config verbose path (files path) ∧
      next.report.errors.toList = run.report.errors.toList ++ failure.map ReadFailure.message ∧
      next.report.failure = run.report.failure ∧
      next.failed = run.failed + failure.length ∧
      ∀ category, category ∈ next.state.table.categories ↔ category ∈ run.state.table.categories ∨
        category ∈ fileCategories required config verbose path (files path) := by
  intro next failure
  have houtcome := readPath_outcome required config verbose path (files path) run.state
  have hcategories := readPath_categories required config verbose path (files path) run.state
  simp only [next, failure, checkFile, account]
  cases hfailure : fileFailure? required config verbose path (files path) with
  | some failure =>
      simp only [hfailure] at houtcome
      rw [houtcome]
      exact ⟨by simp [Report.say, Report.complain], by simp [Report.say, Report.complain], rfl, rfl,
        hcategories⟩
  | none =>
      simp only [hfailure] at houtcome
      obtain ⟨summary, houtcome, hfingerprint⟩ := houtcome
      obtain ⟨hrows, hdefaults⟩ :=
        readPath_counts required config verbose houtcome
      simp only [houtcome, hrows, hdefaults, hfingerprint, Nat.add_sub_cancel_left]
      exact ⟨by simp [Report.say], by simp [Report.say], rfl, rfl, hcategories⟩

theorem foldl_checkFile (files : Files) (paths : List String) (run : CheckRun) :
    let last := paths.foldl (checkFile files config required { verbose }) run
    let failures := paths.filterMap fun path =>
      fileFailure? required config verbose path (files path)
    last.report.output.toList = run.report.output.toList ++
        paths.flatMap (fun path => account required config verbose path (files path)) ∧
      last.report.errors.toList = run.report.errors.toList ++ failures.map ReadFailure.message ∧
      last.report.failure = run.report.failure ∧
      last.failed = run.failed + failures.length ∧
      ∀ category, category ∈ last.state.table.categories ↔ category ∈ run.state.table.categories ∨
        ∃ path ∈ paths, category ∈ fileCategories required config verbose path (files path) := by
  induction paths generalizing run with
  | nil => simp
  | cons path paths ih =>
      obtain ⟨houtput, herrors, hfailure, hfailed, hcategories⟩ :=
        checkFile_step required config verbose files run path
      obtain ⟨hmore, hcomplaints, hkept, hcount, htaken⟩ :=
        ih (checkFile files config required { verbose } run path)
      simp only [List.foldl_cons, List.flatMap_cons, List.filterMap_cons]
      refine ⟨?_, ?_, hkept.trans hfailure, ?_, ?_⟩
      · rw [hmore, houtput, List.append_assoc]
      · rw [hcomplaints, herrors, List.append_assoc]
        cases fileFailure? required config verbose path (files path) <;> rfl
      · rw [hcount, hfailed, Nat.add_assoc]
        cases fileFailure? required config verbose path (files path) <;> simp [Nat.add_comm]
      · intro category
        simp [htaken, hcategories, or_assoc]

@[simp] theorem Report.say_output (report : Report) (lines : List String) :
    (report.say lines).output.toList = report.output.toList ++ lines := by
  simp [say]

@[simp] theorem Report.say_errors (report : Report) (lines : List String) :
    (report.say lines).errors = report.errors := rfl

theorem exit_conclude {report : Report} (h : report.failure = none) (failed total : Nat) :
    (report.conclude failed total).exit =
      { code := if failed = 0 then 0 else 1
        output := unlines report.output.toList.toArray
        errors := unlines (report.errors.toList ++
          if failed = 0 then [] else [s!"Error: {failed} of {total} files failed"]).toArray } := by
  by_cases hfailed : failed = 0
  · simp [Report.conclude, hfailed, Report.exit, h]
  · have hmessage : "Error: " ++ (CommandFailure.filesFailed failed total).message =
        s!"Error: {failed} of {total} files failed" := by
      simp [CommandFailure.message, String.append_assoc, toString]
    simp only [Report.conclude, hfailed, if_false, Report.exit, ← hmessage, Array.toArray_toList,
      ← Array.toList_push]

theorem check_eq (files : Files) (verbose noDefaults : Bool) (required paths : List String) :
    let config : MappingConfig := if noDefaults then {} else .takingDefaults
    let run := paths.foldl (checkFile files config required { verbose }) {}
    check files verbose noDefaults required paths =
      (run.report.say (if run.state.table.categories = [] then []
        else ["Default categories: " ++ " ".intercalate run.state.table.categories])).conclude
        run.failed paths.length := by
  intro config run
  have hcheck : check files verbose noDefaults required paths =
      (if run.state.table.categories.isEmpty then run.report else run.report.say
        ["Default categories: " ++ " ".intercalate run.state.table.categories]).conclude
        run.failed paths.length := rfl
  rw [hcheck]
  cases run.state.table.categories with
  | nil => simp [Report.say]
  | cons category categories => simp

/-- A check accounts for every file in order, whatever fails: the numbers of a file that can be
read are those of its own rows after the header, it fails if any file does, and tells how many
did. The categories at the end are those of the default rows that were taken of any file. -/
theorem check_accounts (files : Files) (verbose noDefaults : Bool) (required paths : List String) :
    let config : MappingConfig := if noDefaults then {} else .takingDefaults
    let failures := paths.filterMap fun path =>
      fileFailure? required config verbose path (files path)
    ∃ categories : List String, categories.Pairwise (· < ·) ∧
      (∀ category, category ∈ categories ↔
        ∃ path ∈ paths, category ∈ fileCategories required config verbose path (files path)) ∧
      (check files verbose noDefaults required paths).exit =
        { code := if failures = [] then 0 else 1
          output := unlines
            (paths.flatMap (fun path => account required config verbose path (files path)) ++
              if categories = [] then []
              else ["Default categories: " ++ " ".intercalate categories]).toArray
          errors := unlines
            (failures.map ReadFailure.message ++
              if failures = [] then []
              else [s!"Error: {failures.length} of {paths.length} files failed"]).toArray } := by
  intro config failures
  have hfold := foldl_checkFile required config verbose files paths {}
  have hcheck := check_eq files verbose noDefaults required paths
  simp only at hcheck
  generalize paths.foldl (checkFile files config required { verbose }) {} = run at hfold hcheck
  obtain ⟨houtput, herrors, hfailure, hfailed, hcategories⟩ := hfold
  have hnone (category : String) : category ∉ nothingGathered.table.categories := by
    simp [nothingGathered, DefaultsTable.mem_categories, DefaultsTable.get?]
  refine ⟨run.state.table.categories, run.state.table.categories_ordered, fun category => ?_, ?_⟩
  · exact (hcategories category).trans (or_iff_right (hnone category))
  · rw [hcheck, exit_conclude (by exact hfailure), Report.say_output, Report.say_errors, houtput,
      herrors, hfailed]
    simp [failures]

end Command

end DefinitionFiles
