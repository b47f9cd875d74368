import DefinitionFiles.Proofs.Columns.Pairing
import DefinitionFiles.Proofs.Columns.WrittenHeader
import DefinitionFiles.Proofs.Defaults.Layers
import DefinitionFiles.Proofs.Mapping.Run

namespace DefinitionFiles

open Text

variable {η : Type}

theorem placedRows_writtenRows (source : String) (verbose : Bool) {limits : Limits}
    {rows : List Row} (h : ∀ row ∈ rows, row.ReadsBack limits) (line : Nat)
    (fingerprint : Fingerprint) :
    let reads := rowReads limits
      ⟨(Feed.ofText (writtenRows rows)).reads limits.readLength, line, fingerprint⟩
    placedRows source verbose reads =
        (rows.zipIdx (line + 1)).map (fun row => ⟨row.1, source, row.2, verbose⟩) ∧
      textFailure? source reads = none := by
  induction rows generalizing line fingerprint with
  | nil =>
      have hfeed : (Feed.ofText (writtenRows [])).reads limits.readLength = [] := rfl
      simp [hfeed, rowReads_end, placedRows, textFailure?]
  | cons row rows ih =>
      have hrow := h row List.mem_cons_self
      obtain ⟨hplaced, hfailure⟩ := ih (fun other ho => h other (List.mem_cons_of_mem row ho))
        (line + 1) (fingerprint.add (Row.written row))
      intro reads
      have hreads : reads = _ :=
        rowReads_writtenRows_cons rows hrow.lines hrow.allowed line fingerprint
      rw [hreads, hrow.unlessBlank]
      simp [placedRows, textFailure?, hrow.ne_nil, hplaced, hfailure]

namespace Columns

/-- Fields for all columns that make up a row of data and are written as they are read. -/
structure DataRow (columns : Columns) (row : Row) : Prop where
  length : row.length = columns.size
  trimmed : ∀ field ∈ row, trim field = field
  lines : ∀ field ∈ row, '\n' ∉ field.toList
  filled : ∃ field ∈ row, field ≠ ""
  unmarked : ∀ field ∈ row.head?, field.toList.head? ≠ some defaultMark

variable {columns : Columns}

theorem DataRow.readsBack {row : Row} (h : columns.DataRow row) {limits : Limits}
    (hallowed : limits.Allow (Row.written row)) : Row.ReadsBack limits row :=
  ⟨(List.map_congr_left h.trimmed).trans (List.map_id row), h.filled, h.lines, hallowed⟩

theorem DataRow.isDefault {row : Row} (h : columns.DataRow row) : row.isDefault = false := by
  have hunmarked := h.unmarked
  cases row with
  | nil => rfl
  | cons field rest =>
      have hfield := hunmarked field rfl
      simp only [Row.isDefault, List.head?_cons, Option.any_some, splitMark]
      cases hf : field.toList with
      | nil => rfl
      | cons c more =>
          have hc : c ≠ defaultMark := by simpa [hf] using hfield
          simp [hc]

theorem WellFormed.exists_parts (h : columns.WellFormed) (width : RowWidth) {rows : List Row}
    (hrows : ∀ row ∈ rows, columns.DataRow row) :
    ∃ parts : List RecordParts, List.Forall₂ columns.Pairs rows parts ∧
      List.Forall₂ (fun row parts => row.isDefault = false ∧ columns.assign width row = .ok parts)
        rows parts := by
  induction rows with
  | nil => exact ⟨[], .nil, .nil⟩
  | cons row rows ih =>
      have hrow := hrows row List.mem_cons_self
      obtain ⟨parts, hpairs, hassigned⟩ := ih fun other ho => hrows other (List.mem_cons_of_mem row ho)
      obtain ⟨first, hassign, hfirst⟩ := h.assign width hrow.length
      exact ⟨first :: parts, .cons hfirst hpairs, .cons ⟨hrow.isDefault, hassign⟩ hassigned⟩

end Columns

def plainContext (source : String) (columns : Columns) (line : Nat) : RecordContext :=
  { source, line, verbose := false, columns, fileDefaults := ∅, device := none }

abbrev TakeRecord (η : Type) :=
  Record → List Record → RecordContext → η → Except Refusal Unit × η

namespace MappingState

def handOn (takeRecord : TakeRecord η) (source : String) (columns : Columns)
    (state : MappingState η) (record : RecordParts × Nat) : MappingState η :=
  let ctx := plainContext source columns record.2
  (state.call (.record record.1.main record.1.subs ctx)).withHandler
    (takeRecord record.1.main record.1.subs ctx state.handler).2

def settle (takeRecord : TakeRecord η) (source : String) (columns : Columns)
    (state : MappingState η) : MappingState η :=
  match state.session.held with
  | none => state
  | some held =>
      (state.hold none).handOn takeRecord source columns (⟨held.main, held.subs⟩, held.line)

def bind (source : String) (header : Row) (columns : Columns) (state : MappingState η) :
    MappingState η :=
  { handler := state.handler
    table := state.table
    session := { columns := some columns }
    calls := (state.calls.push (.fileName ((Path.fileName? source).getD source))).push
      (.header header)
    log := state.log.push (.bound source 1 columns.size columns.groups.length true) }

structure Plain (columns : Columns) (state : MappingState η) : Prop where
  columns : state.session.columns = some columns
  fileDefaults : state.session.fileDefaults = ∅
  device : state.session.device = none
  table : state.table = {}

variable {source : String} {columns : Columns} {state : MappingState η}

theorem Plain.hold (h : state.Plain columns) (held : Option HeldRow) :
    (state.hold held).Plain columns := ⟨h.columns, h.fileDefaults, h.device, h.table⟩

theorem Plain.settle (h : state.Plain columns) (takeRecord : TakeRecord η) (source : String) :
    (state.settle takeRecord source columns).Plain columns ∧
      (state.settle takeRecord source columns).session.held = none := by
  simp only [MappingState.settle]
  split
  · exact ⟨h, by assumption⟩
  · exact ⟨⟨h.columns, h.fileDefaults, h.device, h.table⟩, rfl⟩

theorem settle_hold (takeRecord : TakeRecord η) (source : String) (columns : Columns)
    (h : state.session.held = none) (parts : RecordParts) (groups line : Nat) :
    (state.hold (some ⟨parts.main, parts.subs, groups, line⟩)).settle takeRecord source columns =
      state.handOn takeRecord source columns (parts, line) := by
  have hhold : (state.hold (some ⟨parts.main, parts.subs, groups, line⟩)).hold none = state := by
    simp only [hold, ← h]
  simp only [settle, hhold]
  rfl

theorem foldl_handOn (takeRecord : TakeRecord η) (source : String) (columns : Columns)
    (records : List (RecordParts × Nat)) (state : MappingState η) :
    let after := records.foldl (handOn takeRecord source columns) state
    after.session = state.session ∧ after.table = state.table ∧
      after.calls.toList = state.calls.toList ++ records.map (fun record =>
        .record record.1.main record.1.subs (plainContext source columns record.2)) ∧
      after.handler = records.foldl (fun own record =>
        (takeRecord record.1.main record.1.subs (plainContext source columns record.2) own).2)
        state.handler := by
  induction records generalizing state with
  | nil => simp
  | cons record records ih =>
      obtain ⟨hsession, htable, hcalls, hhandler⟩ := ih (state.handOn takeRecord source columns record)
      refine ⟨hsession, htable, ?_, hhandler⟩
      rw [List.foldl_cons, hcalls]
      simp [handOn, call, withHandler]

end MappingState

namespace Handler

variable {takeRecord : TakeRecord η} {config : MappingConfig} {columns : Columns}
  {state : MappingState η}

theorem filled_plain (handler : Handler η) (ctx : RecordContext) (h : state.Plain columns)
    (held : HeldRow) : handler.filled ctx state held = (state, held.main, held.subs) := by
  have hnone : ∀ categories, DefaultsTable.first? {} categories = none := by
    intro categories
    exact List.findSome?_eq_none_iff.2 fun category _ => Std.ExtTreeMap.getElem?_empty
  simp [filled, h.fileDefaults, h.table, hnone]

theorem perform_header (takeRecord : TakeRecord η) (config : MappingConfig) (source : String)
    {header : Row} (hcolumns : Columns.ofHeader header = .ok columns) (state : MappingState η) :
    let handler : Handler η := { takeRecord }
    (handler.sink config).perform (.row header ⟨source, 1, false⟩) (handler.start source {} state) =
      (.ok (), state.bind source header columns) := by
  intro handler
  have hbind : handler.bindColumns ⟨source, 1, false⟩ header (handler.start source {} state) =
      (.ok false, state.bind source header columns) := by
    simp [bindColumns, start, columnNames, columnsFor, hcolumns, handler, bind, Except.bind, pure,
      Except.pure, MappingState.call, MappingState.withHandler, MappingState.report,
      MappingState.bind]
  have hnone : (handler.start source {} state).session.columns = none := rfl
  simp [Sink.perform, sink, takeRow, hnone, hbind]

section

variable (haccepts : ∀ main subs ctx own, (takeRecord main subs ctx own).1 = .ok ())

include haccepts

theorem release_plain (source : String) (h : state.Plain columns) (line : Nat) :
    ({ takeRecord } : Handler η).release config ⟨source, line, false⟩ state =
      (.ok (), state.settle takeRecord source columns) := by
  cases hh : state.session.held with
  | none => simp [release, MappingState.settle, hh]
  | some held =>
      have hplain := h.hold none
      have hctx : (state.hold none).session.context columns ⟨source, held.line, false⟩ =
          plainContext source columns held.line := by
        simp [Session.context, plainContext, hplain.fileDefaults, hplain.device]
      have hfilled : (if config.fillsDefaults then
            filled { takeRecord } (plainContext source columns held.line) (state.hold none) held
          else (state.hold none, held.main, held.subs)) = (state.hold none, held.main, held.subs) := by
        split
        · exact filled_plain _ _ hplain held
        · rfl
      simp only [release, hh, hplain.columns, hctx, hfilled, haccepts, MappingState.settle,
        MappingState.handOn]
      rfl

theorem takeRow_plain (source : String) (h : state.Plain columns) {row : Row}
    (hdata : row.isDefault = false) {parts : RecordParts}
    (hparts : columns.assign config.width row = .ok parts) (line : Nat) :
    ({ takeRecord } : Handler η).takeRow config row ⟨source, line, false⟩ state =
      ⟨.ok (), row, (state.settle takeRecord source columns).hold
        (some ⟨parts.main, parts.subs, parts.subs.length, line⟩)⟩ := by
  have hassign : state.session.assign config row = .ok (columns, parts) := by
    simp [Session.assign, h.columns, hparts]
  simp [takeRow, h.columns, takeBound, hdata, takeDataRow, hassign, release_plain haccepts source h]

/-- Every row hands on the one before it, so rows and records are one apart until the end. -/
theorem run_plain (source : String) {rows : List Row} {parts : List RecordParts}
    (hrows : List.Forall₂ (fun row parts => row.isDefault = false ∧
      columns.assign config.width row = .ok parts) rows parts)
    (h : state.Plain columns) (line : Nat) :
    let handler : Handler η := { takeRecord }
    let placed : List PlacedRow := (rows.zipIdx line).map fun row => ⟨row.1, source, row.2, false⟩
    let ran := (handler.sink config).run (placed.map PlacedRow.call) state
    ran.1 = .ok () ∧ ran.2.Plain columns ∧
      ran.2.settle takeRecord source columns =
        (parts.zipIdx line).foldl (MappingState.handOn takeRecord source columns)
          (state.settle takeRecord source columns) := by
  induction hrows generalizing state line with
  | nil => exact ⟨rfl, h, rfl⟩
  | @cons row parts rows more hrow hrest ih =>
      intro handler placed ran
      obtain ⟨hsettled, hheld⟩ := h.settle takeRecord source
      have htake := takeRow_plain haccepts source h hrow.1 hrow.2 line
      have hperform : (handler.sink config).perform (.row row ⟨source, line, false⟩) state =
          (.ok (), (state.settle takeRecord source columns).hold
            (some ⟨parts.main, parts.subs, parts.subs.length, line⟩)) := by
        simp only [Sink.perform, sink, handler, htake]
      obtain ⟨hok, hplain, hlast⟩ := ih (hsettled.hold
        (some ⟨parts.main, parts.subs, parts.subs.length, line⟩)) (line + 1)
      rw [MappingState.settle_hold takeRecord source columns hheld] at hlast
      rw [show ran = _ from Sink.run_cons_of_ok hperform _]
      exact ⟨hok, hplain, hlast⟩

theorem run_written (source : String) {header : Row}
    (hcolumns : Columns.ofHeader header = .ok columns) {rows : List Row} {parts : List RecordParts}
    (hrows : List.Forall₂ (fun row parts => row.isDefault = false ∧
      columns.assign config.width row = .ok parts) rows parts)
    (htable : state.table = {}) (line : Nat) :
    let handler : Handler η := { takeRecord }
    let placed : List PlacedRow :=
      ((header :: rows).zipIdx 1).map fun row => ⟨row.1, source, row.2, false⟩
    (handler.sink config).run
        (.start source {} :: (placed.map PlacedRow.call ++ [.finish ⟨source, line, false⟩])) state =
      (.ok (), (parts.zipIdx 2).foldl (MappingState.handOn takeRecord source columns)
        (state.bind source header columns)) := by
  intro handler placed
  let later : List PlacedRow := (rows.zipIdx 2).map fun row => ⟨row.1, source, row.2, false⟩
  have hplaced : placed.map PlacedRow.call =
      .row header ⟨source, 1, false⟩ :: later.map PlacedRow.call := rfl
  have hstart : (handler.sink config).perform (.start source {}) state =
      (.ok (), handler.start source {} state) := rfl
  have hheader := perform_header takeRecord config source hcolumns state
  have hplain : (state.bind source header columns).Plain columns := ⟨rfl, rfl, rfl, htable⟩
  obtain ⟨hok, hafter, hlast⟩ := run_plain haccepts source hrows hplain 2
  have hfinish : (handler.sink config).perform (.finish ⟨source, line, false⟩)
      ((handler.sink config).run (later.map PlacedRow.call) (state.bind source header columns)).2 =
        _ := release_plain haccepts source hafter line
  rw [Sink.run_cons_of_ok hstart, hplaced, List.cons_append, Sink.run_cons_of_ok hheader,
    Sink.run_append, hok]
  simp only
  rw [Sink.run_cons_of_ok hfinish, hlast]
  rfl

/-- A file that is written from columns and rows reads back as these columns, and as one record
for each row that pairs its fields with the columns. -/
theorem readSource_written (config : MappingConfig) (reading : ReadingConfig) (source : String)
    {header : List String} {rows : List Row} {state : MappingState η}
    (hcolumns : Columns.ofHeader header = .ok columns)
    (hnames : ∀ name ∈ columns.names, '\n' ∉ name.toList)
    (hrows : ∀ row ∈ rows, columns.DataRow row)
    (hlimits : reading.limits.Allow columns.written ∧
      ∀ row ∈ rows, reading.limits.Allow (Row.written row))
    (htable : state.table = {}) :
    let handler : Handler η := { takeRecord }
    let text := columns.written.push '\n' ++ writtenRows rows
    let read := (handler.sink config).readSource reading source {} (.ofText text) state
    (∃ summary, read.outcome = .ok summary ∧ summary.rows = 1 + rows.length) ∧
      read.state.session.columns = some columns ∧ read.state.table = {} ∧
      ∃ parts : List RecordParts, List.Forall₂ columns.Pairs rows parts ∧
        let records := parts.zipIdx 2
        read.state.calls.toList = state.calls.toList ++
          .fileName ((Path.fileName? source).getD source) :: .header columns.header ::
            records.map (fun record =>
              .record record.1.main record.1.subs (plainContext source columns record.2)) ∧
        read.state.handler = records.foldl (fun own record =>
          (takeRecord record.1.main record.1.subs (plainContext source columns record.2) own).2)
          state.handler := by
  intro handler text read
  have hwell := Columns.wellFormed_of_ofHeader hcolumns
  have hreadsBack : ∀ row ∈ columns.header :: rows, Row.ReadsBack reading.limits row :=
    List.forall_mem_cons.2 ⟨hwell.readsBack_header hnames hlimits.1,
      fun row hr => (hrows row hr).readsBack (hlimits.2 row hr)⟩
  obtain ⟨parts, hpairs, hassigned⟩ := hwell.exists_parts config.width hrows
  obtain ⟨hplaced, hfailure⟩ := placedRows_writtenRows source false hreadsBack 0 {}
  have hstart : Position.ofFeed reading.limits (.ofText text) =
      ⟨(Feed.ofText (writtenRows (columns.header :: rows))).reads reading.limits.readLength, 0, {}⟩ :=
    rfl
  rw [← hstart] at hplaced hfailure
  have hran := run_written haccepts source hwell.ofHeader_header hassigned htable
    (endOfReads (rowReads reading.limits (.ofFeed reading.limits (.ofText text)))).line
  obtain ⟨hstate, houtcome⟩ := (handler.sink config).readToEnd_eq_run (sink_keepsRows handler config)
    reading source {} (.ofText text) state
  simp only [readScript, finishCalls, hfailure, hplaced] at hstate houtcome
  rw [hran] at hstate houtcome
  have hread : read.state = _ := hstate
  obtain ⟨hsession, htables, hcalls, hhandler⟩ := MappingState.foldl_handOn takeRecord source columns
    (parts.zipIdx 2) (state.bind source columns.header columns)
  refine ⟨⟨_, houtcome, ?_⟩, ?_, ?_, parts, hpairs, ?_, ?_⟩
  · simp [Nat.add_comm]
  · rw [hread, hsession]
    rfl
  · rw [hread, htables]
    exact htable
  · rw [hread, hcalls]
    simp [MappingState.bind]
  · rw [hread, hhandler]
    rfl

end

theorem readSource_written_groups :
    let columns : Columns := ⟨["#id", "a,b"], [["v", "w"], ["*v"]]⟩
    let rows : List Row := [["1", "x\"y", "", "", ""], ["", "2 ;3", "p", "", "z*"]]
    let counting : Handler Nat := { takeRecord := fun _ _ _ count => (.ok (), count + 1) }
    let text := columns.written.push '\n' ++ writtenRows rows
    let read := (counting.sink .takingDefaults).readSource {} "a.csv" {} (.ofText text) { handler := 0 }
    Columns.ofHeader [" #id", "a,b", "* v", "w ", "**v"] = .ok columns ∧
      (∃ summary, read.outcome = .ok summary ∧ summary.rows = 3) ∧
      read.state.session.columns = some columns ∧ read.state.handler = 2 ∧
      ∃ first second : RecordParts, first.subs = [] ∧ second.subs.length = 2 ∧
        read.state.calls.toList = [.fileName "a.csv", .header ["#id", "a,b", "*v", "w", "**v"],
          .record first.main first.subs (plainContext "a.csv" columns 2),
          .record second.main second.subs (plainContext "a.csv" columns 3)] := by
  intro columns rows counting text read
  have hcolumns : Columns.ofHeader [" #id", "a,b", "* v", "w ", "**v"] = .ok columns := rfl
  have hrows : ∀ row ∈ rows, columns.DataRow row := by
    intro row hr
    constructor <;> revert row <;> decide +kernel
  have hlimits : Limits.Allow {} columns.written ∧ ∀ row ∈ rows, Limits.Allow {} (Row.written row) := by
    simp only [Limits.Allow]
    decide +kernel
  have haccepts : ∀ main subs ctx own, (counting.takeRecord main subs ctx own).1 = .ok () :=
    fun _ _ _ _ => rfl
  have htable : ({ handler := 0 } : MappingState Nat).table = {} := rfl
  obtain ⟨houtcome, hbound, -, parts, hpairs, hcalls, hhandler⟩ := readSource_written haccepts
    .takingDefaults {} "a.csv" hcolumns (by decide +kernel) hrows hlimits htable
  obtain ⟨first, second, rfl⟩ := List.length_eq_two.1 hpairs.length_eq.symm
  simp only [rows, List.forall₂_cons] at hpairs
  obtain ⟨hfirst, hsecond, -⟩ := hpairs
  refine ⟨hcolumns, houtcome, hbound, hhandler, first, second, ?_, ?_, hcalls⟩
  · refine List.length_eq_zero_iff.1 (hfirst.subs.length_eq.symm.trans ?_)
    decide +kernel
  · refine hsecond.subs.length_eq.symm.trans ?_
    decide +kernel

end Handler

end DefinitionFiles
