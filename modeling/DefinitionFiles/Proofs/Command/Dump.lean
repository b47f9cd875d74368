import DefinitionFiles.Command.Run
import DefinitionFiles.Proofs.Command.Gathered
import DefinitionFiles.Proofs.DeviceName
import DefinitionFiles.Proofs.Mapping.Shape

namespace DefinitionFiles.Command

open Text

def ReadsAs (line : String) (values : List String) : Prop :=
  '\n' ∉ line.toList ∧ ∀ limits : Limits, limits.Allow line →
    let read := readLogicalRow limits (.ofFeed limits (.ofText (line.push '\n')))
    read.outcome = .ok true ∧ read.row = Row.unlessBlank (values.map trim) ∧ read.position.rest = []

theorem readsAs_indented {indent : String} (hindent : ∀ c ∈ indent.toList, isBlank c = true ∧ c ≠ '\n')
    {values : List String} (hvalues : ∀ value ∈ values, '\n' ∉ value.toList) :
    ReadsAs (indent ++ Row.written values) values := by
  have hline : '\n' ∉ (indent ++ Row.written values).toList := by
    rw [String.toList_append]
    intro hm
    rcases List.mem_append.1 hm with hm | hm
    · exact (hindent _ hm).2 rfl
    · exact lineFeed_not_mem_written hvalues hm
  refine ⟨hline, fun limits hallow => ?_⟩
  have htrim : trim ((indent ++ Row.written values).push '\n') = Row.written values := by
    rw [trim_push_blank _ (by decide), trim_blank_append (fun c hc => (hindent c hc).1),
      trim_written]
  rw [ofFeed_text hline hallow, readLogicalRow_of_trim hallow.contentLength_le htrim]
  exact ⟨rfl, rfl, rfl⟩

theorem readsAs_written {values : List String} (hvalues : ∀ value ∈ values, '\n' ∉ value.toList) :
    ReadsAs (Row.written values) values := by
  have h : ReadsAs ("" ++ Row.written values) values := readsAs_indented (by simp) hvalues
  rwa [String.empty_append] at h

theorem areNamesOf_of_hasJust {names : List String} {record : Record} (h : record.HasJust names)
    (hnames : names.Nodup) : areNamesOf names record = true := by
  have hkeys : record.keys.Nodup :=
    Std.ExtTreeMap.distinct_keys.imp fun hne he => hne (by rw [he]; exact Std.ReflCmp.compare_self)
  have hperm : names.Perm record.keys :=
    (List.perm_ext_iff_of_nodup hnames hkeys).2 fun name => by
      rw [Std.ExtTreeMap.mem_keys]
      exact (h name).symm
  have hsize : names.length = record.size := by
    rw [hperm.length_eq, Std.ExtTreeMap.length_keys]
  simp only [areNamesOf, hsize, beq_self_eq_true, Bool.true_and, List.all_eq_true]
  exact fun name hname => Std.ExtTreeMap.contains_iff_mem.2 ((h name).2 hname)

theorem writtenSub_of_hasJust {columns : Columns} {i : Nat} {group : List String}
    (hgroup : columns.groups[i]? = some group) (hnames : group.Nodup) {sub : Record}
    (h : sub.HasJust group) : writtenSub (some columns) i sub = sub.written group := by
  simp [writtenSub, hgroup, areNamesOf_of_hasJust h hnames]

def shownLines (columns : Columns) (parts : RecordParts) : List String :=
  parts.main.written columns.main ::
    List.zipWith (fun sub group => "  " ++ sub.written group) parts.subs columns.groups

theorem writtenLines_eq {columns : Columns} (hcolumns : columns.WellFormed)
    {state : MappingState Gathered} (hbound : state.session.columns = some columns)
    {gathered : GatheredRecord} (hsubs : columns.HasSubs gathered.subs) :
    writtenLines state gathered = shownLines columns ⟨gathered.main, gathered.subs⟩ := by
  have hmain : state.written gathered.main = gathered.main.written columns.main := by
    simp [MappingState.written, hbound, Columns.writtenRecord]
  rw [writtenLines, shownLines, hmain, hbound]
  congr 1
  apply List.ext_getElem?
  intro i
  rw [List.getElem?_mapIdx, List.getElem?_zipWith]
  cases hsub : gathered.subs[i]? with
  | none => rfl
  | some sub =>
      obtain ⟨group, hgroup, hjust⟩ := hsubs.group hsub
      have hnames : group.Nodup := (hcolumns.groups group (List.mem_of_getElem? hgroup)).2.nodup
      rw [Option.map_some, writtenSub_of_hasJust hgroup hnames hjust, hgroup]

/-- Lines that show a record: one that reads as its main values, and for each sub-row an indented
one that reads as the values of that sub-row, in the order of its own group of columns. -/
structure Shows (columns : Columns) (parts : RecordParts) (lines : List String) : Prop where
  length : lines.length = parts.subs.length + 1
  main : ∃ line, lines[0]? = some line ∧ ReadsAs line (columns.main.map parts.main.value)
  subs : ∀ (i : Nat) (sub : Record), parts.subs[i]? = some sub →
    ∃ group line, columns.groups[i]? = some group ∧ sub.HasJust group ∧
      lines[i + 1]? = some ("  " ++ line) ∧ ReadsAs ("  " ++ line) (group.map sub.value)

theorem shows_shownLines {columns : Columns} {parts : RecordParts}
    (hsubs : columns.HasSubs parts.subs) (hvalues : parts.AllValues ('\n' ∉ ·.toList)) :
    Shows columns parts (shownLines columns parts) where
  length := by
    have hlength := hsubs.length_le
    rw [shownLines, List.length_cons, List.length_zipWith]
    omega
  main := by
    refine ⟨_, rfl, readsAs_written fun value hvalue => ?_⟩
    obtain ⟨name, -, rfl⟩ := List.mem_map.1 hvalue
    exact hvalues.1 name
  subs i sub hsub := by
    obtain ⟨group, hgroup, hjust⟩ := hsubs.group hsub
    have hline : (shownLines columns parts)[i + 1]? = some ("  " ++ sub.written group) := by
      rw [shownLines, List.getElem?_cons_succ, List.getElem?_zipWith, hsub, hgroup]
    have hindent : ∀ c ∈ "  ".toList, isBlank c = true ∧ c ≠ '\n' := by
      intro c hc
      obtain rfl : c = ' ' := by simpa using hc
      exact ⟨by decide, by decide⟩
    refine ⟨group, sub.written group, hgroup, hjust, hline, readsAs_indented hindent ?_⟩
    intro value hvalue
    obtain ⟨name, -, rfl⟩ := List.mem_map.1 hvalue
    exact hvalues.2 sub (List.mem_of_getElem? hsub) name

theorem fileDefaults_gatherer {required : List String} {source : String}
    (hname : '\n' ∉ ((Path.fileName? source).getD source).toList) {options : SourceOptions}
    (hdefaults : options.defaults = none) (state : MappingState Gathered) :
    ((gatherer required).start source options state).session.fileDefaults.AllValues
      ('\n' ∉ ·.toList) := by
  intro name
  rw [Handler.start_fileDefaults, hdefaults, Option.bind_none, Option.or_none]
  cases hdevice : DeviceName.parse ((Path.fileName? source).getD source) with
  | none => simp [gatherer, hdevice]
  | some device =>
      have hvalue := DeviceName.lineFeed_not_mem_of_parse hdevice hname name
      rw [Record.value_eq] at hvalue
      simpa [gatherer, hdevice] using hvalue

theorem dump_of_not_failed {files : Files} {verbose : Bool} {path : String}
    (h : (dump files verbose false path).failure = none) :
    ∃ content modified summary, files path = .file content modified ∧
      let read := ((gatherer []).sink .takingDefaults).readSource {} path { verbose } content
        nothingGathered
      read.outcome = .ok summary ∧
        dump files verbose false path =
          Report.say {} (read.state.handler.records.flatMap (writtenLines read.state)) := by
  simp only [dump] at h ⊢
  cases hfile : files path with
  | unreadable reason => simp [hfile, Sink.readPath] at h
  | directory => simp [hfile, Sink.readPath] at h
  | file content modified =>
      simp only [hfile, Sink.readPath] at h ⊢
      cases hread : (((gatherer []).sink .takingDefaults).readSource {} path { verbose } content
        nothingGathered).outcome with
      | error failure => simp [hread, Except.map] at h
      | ok summary => exact ⟨content, modified, summary, rfl, hread, by simp [Except.map]⟩

/-- A file that is dumped is shown row by row, default rows left out: the values that a row was
handed on with stand under their own columns, those of a sub-row under the columns of its group. -/
theorem dump_shows {files : Files} {verbose : Bool} {path : String}
    (hname : '\n' ∉ ((Path.fileName? path).getD path).toList)
    (hread : (dump files verbose false path).failure = none) :
    ∃ content modified, files path = .file content modified ∧
      let handler := gatherer []
      let config := MappingConfig.takingDefaults
      let read := (handler.sink config).readSource {} path { verbose } content nothingGathered
      let placed := placedRows path verbose (rowReads {} (.ofFeed {} content))
      let arrivals := handler.arrivals config (readScript {} path { verbose } content)
        nothingGathered
      let data := arrivals.filter (!·.row.isDefault)
      let lines (row : Arrival Gathered) := shownLines row.columns (handler.settled config row)
      arrivals.map Arrival.placed = placed.tail ∧
      read.state.calls.toList.filterMap gathered? = data.map (gatheredRow [] config) ∧
      (dump files verbose false path).exit = ⟨0, unlines (data.flatMap lines).toArray, ""⟩ ∧
      ∀ row ∈ data, read.state.session.columns = some row.columns ∧
        row.columns.Shapes (handler.settled config row) ∧
        Shows row.columns (handler.settled config row) (lines row) ∧
        ∀ (i : Nat) (sub : Record), (handler.settled config row).subs[i]? = some sub →
          ∃ group, row.columns.groups[i]? = some group ∧
            writtenSub read.state.session.columns i sub = sub.written group := by
  obtain ⟨content, modified, summary, hfile, hok, hdump⟩ := dump_of_not_failed hread
  refine ⟨content, modified, hfile, ?_⟩
  intro handler config read placed arrivals data lines
  obtain ⟨hplaced, hfits, hcalls, hrecords⟩ := readSource_gathers hok
  have hdata : ∀ row ∈ data, row ∈ arrivals := fun row hrow => (List.mem_filter.1 hrow).1
  have hbound : ∀ row ∈ data, read.state.session.columns = some row.columns := by
    intro row hrow
    rw [show read.state = _ from Handler.readSource_state {} path { verbose } content nothingGathered]
    exact Handler.columns_of_script (hdata row hrow)
  have hwell : ∀ row ∈ data, row.columns.WellFormed :=
    fun row hrow => Handler.wellFormed_of_script (hdata row hrow)
  have hshapes : ∀ row ∈ data, row.columns.Shapes (handler.settled config row) :=
    fun row hrow => Handler.shapes_settled (hfits row (hdata row hrow))
  have hvalues : ∀ row ∈ data, (handler.settled config row).AllValues ('\n' ∉ ·.toList) := by
    intro row hrow
    exact Handler.allValues_of_script (by simp) rfl DefaultsTable.sums_nil (by simp)
      (fileDefaults_gatherer hname rfl nothingGathered)
      (fun row hrow => Handler.lineFeed_not_mem_of_script hrow) row (hdata row hrow)
  refine ⟨hplaced, ?_, ?_, ?_⟩
  · rw [show read.state.calls.toList = _ from hcalls, List.filterMap_append, List.filterMap_append,
      filterMap_gathered?_openingCalls, filterMap_gathered?_rowCall]
    rfl
  · have hlines : read.state.handler.records.flatMap (writtenLines read.state) =
        data.flatMap lines := by
      calc read.state.handler.records.flatMap (writtenLines read.state)
          = (data.map (gatheredRow [] config)).flatMap (writtenLines read.state) := by
              rw [show read.state.handler.records = _ from hrecords]
              rfl
        _ = data.flatMap (fun row => writtenLines read.state (gatheredRow [] config row)) :=
              List.flatMap_map ..
        _ = data.flatMap lines := List.flatMap_congr fun row hrow =>
              writtenLines_eq (hwell row hrow) (hbound row hrow) (hshapes row hrow).subs
    rw [hdump, hlines]
    simp [Report.exit, Report.say, unlines]
  · intro row hrow
    refine ⟨hbound row hrow, hshapes row hrow,
      shows_shownLines (hshapes row hrow).subs (hvalues row hrow), ?_⟩
    intro i sub hsub
    obtain ⟨group, hgroup, hjust⟩ := (hshapes row hrow).subs.group hsub
    have hnames := ((hwell row hrow).groups group (List.mem_of_getElem? hgroup)).2.nodup
    rw [hbound row hrow]
    exact ⟨group, hgroup, writtenSub_of_hasJust hgroup hnames hjust⟩

theorem dump_shows_shared :
    let files : Files := fun _ => .file (.ofText ("type,circuit,*v,w,*circuit,v\n*r,,9,8,,7\n" ++
      "r,,,1,\"a,b\",\nr,x,,,,\n")) 0
    let path := "parts/08.bai.csv"
    let shown := "r,bai\n  9,1\n  \"a,b\",7\nr,x\n"
    '\n' ∉ ((Path.fileName? path).getD path).toList ∧ (dump files false false path).failure = none ∧
      (dump files false false path).exit = ⟨0, shown, ""⟩ ∧
      ∃ rows : List (Columns × RecordParts),
        unlines (rows.flatMap fun row => shownLines row.1 row.2).toArray = shown ∧
          ∀ row ∈ rows, Shows row.1 row.2 (shownLines row.1 row.2) := by
  intro files path shown
  have hname : '\n' ∉ ((Path.fileName? path).getD path).toList := by decide +kernel
  have hread : (dump files false false path).failure = none := by decide +kernel
  have hexit : (dump files false false path).exit = ⟨0, shown, ""⟩ := by decide +kernel
  let parts (row : Arrival Gathered) := (gatherer []).settled .takingDefaults row
  obtain ⟨data, hprinted, hshows⟩ : ∃ data : List (Arrival Gathered),
      (dump files false false path).exit =
          ⟨0, unlines (data.flatMap fun row => shownLines row.columns (parts row)).toArray, ""⟩ ∧
        ∀ row ∈ data, Shows row.columns (parts row) (shownLines row.columns (parts row)) := by
    obtain ⟨_, _, _, _, _, hprinted, hrows⟩ := dump_shows hname hread
    exact ⟨_, hprinted, fun row hrow => (hrows row hrow).2.2.1⟩
  rw [hexit] at hprinted
  refine ⟨hname, hread, hexit, data.map fun row => (row.columns, parts row), ?_, ?_⟩
  · rw [List.flatMap_map]
    exact (congrArg Exit.output hprinted).symm
  · intro row hrow
    obtain ⟨arrival, harrival, rfl⟩ := List.mem_map.1 hrow
    exact hshows arrival harrival

end DefinitionFiles.Command
