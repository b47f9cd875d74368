import DefinitionFiles.Proofs.Row.Lines
import DefinitionFiles.Reading.Source

namespace DefinitionFiles

variable {σ : Type}

theorem readRowFrom_eq_end {limits : Limits} {split : Split} {joined line : Nat}
    {fingerprint : Fingerprint} {lines : List LineRead}
    (h : (readRowFrom limits split joined line fingerprint lines).outcome = .ok false) :
    lines = [] ∧ ∃ fieldStart, split.place = .outside fieldStart := by
  induction lines generalizing split joined line fingerprint with
  | nil =>
      refine ⟨rfl, ?_⟩
      cases hp : split.place with
      | outside fieldStart => exact ⟨fieldStart, rfl⟩
      | quoted openedOn => simp [readRowFrom, Split.atEnd, hp] at h
  | cons first rest ih =>
      exfalso
      rw [readRowFrom] at h
      cases hs : split.step limits joined line (first.shown limits) with
      | ended outcome left =>
          simp only [hs] at h
          exact Split.step_ended_ne hs h
      | onward next =>
          -- the end of the source is a failure between quotes
          simp only [hs] at h
          obtain ⟨-, openedOn, -, -, -, -, hplace⟩ := Split.step_onward hs
          obtain ⟨-, fieldStart, houtside⟩ := ih h
          cases hplace.symm.trans houtside

theorem readLogicalRow_end {limits : Limits} {position : Position}
    (h : (readLogicalRow limits position).outcome = .ok false) :
    position.rest = [] ∧ (readLogicalRow limits position).row = [] := by
  obtain ⟨hrest, -⟩ := readRowFrom_eq_end h
  refine ⟨hrest, ?_⟩
  simp [readLogicalRow, hrest, readRowFrom, Split.row]

theorem RowRead.isEnd_of_ok {read : RowRead} {more : Bool} (h : read.outcome = .ok more) :
    read.isEnd = !more := by
  cases more <;> simp [isEnd, h]

theorem readLogicalRow_induction (limits : Limits) {motive : Position → Prop}
    (step : ∀ position,
      ((readLogicalRow limits position).isEnd = false →
        motive (readLogicalRow limits position).position) → motive position)
    (position : Position) : motive position := by
  generalize hn : position.rest.length = n
  induction n using Nat.strongRecOn generalizing position with
  | ind n ih =>
      refine step position fun h => ih _ ?_ _ rfl
      exact hn ▸ readLogicalRow_rest_lt h

def RowRead.CountsLines (read : RowRead) (line : Nat) (lines : List LineRead) : Prop :=
  ∀ more, read.outcome = .ok more →
    ∃ taken, read.position.line = line + taken ∧ read.position.rest = lines.drop taken

theorem readRowFrom_countsLines (limits : Limits) (split : Split) (joined line : Nat)
    (fingerprint : Fingerprint) (lines : List LineRead) :
    (readRowFrom limits split joined line fingerprint lines).CountsLines line lines := by
  intro more ho
  cases more with
  | false =>
      obtain ⟨rfl, fieldStart, hplace⟩ := readRowFrom_eq_end ho
      exact ⟨0, by simp [readRowFrom]⟩
  | true =>
      obtain ⟨decoded, hlines, -, hline, -⟩ := readRowFrom_makes ho
      have hdropped := congrArg (List.drop decoded.length) hlines
      rw [List.drop_left' (List.length_map _)] at hdropped
      exact ⟨decoded.length, hline, hdropped.symm⟩

theorem rowReads_of_isEnd {limits : Limits} {position : Position}
    (h : (readLogicalRow limits position).isEnd = true) :
    rowReads limits position = [readLogicalRow limits position] := by
  rw [rowReads_eq, if_pos h]

theorem rowReads_of_not_isEnd {limits : Limits} {position : Position}
    (h : (readLogicalRow limits position).isEnd = false) :
    rowReads limits position = readLogicalRow limits position ::
      rowReads limits (readLogicalRow limits position).position := by
  rw [rowReads_eq, h, if_neg Bool.false_ne_true]

theorem mem_rowReads_iff {limits : Limits} {position : Position} {read : RowRead} :
    read ∈ rowReads limits position ↔ read = readLogicalRow limits position ∨
      (readLogicalRow limits position).isEnd = false ∧
        read ∈ rowReads limits (readLogicalRow limits position).position := by
  cases he : (readLogicalRow limits position).isEnd with
  | true => simp [rowReads_of_isEnd he]
  | false => simp [rowReads_of_not_isEnd he]

/-- Where no attempt to read a row fails, the rows are made up of all the lines, each counted and
added to the fingerprint, and the last attempt finds the end. -/
theorem rowReads_complete {limits : Limits} {position : Position}
    (h : ∀ read ∈ rowReads limits position, ∃ more, read.outcome = .ok more) :
    ∃ (whole : List RowRead) (texts : List String),
      rowReads limits position = whole ++ [⟨.ok false, [], ⟨[], position.line + texts.length,
        (texts.map Text.trim).foldl Fingerprint.add position.fingerprint⟩⟩] ∧
      (∀ read ∈ whole, read.outcome = .ok true) ∧
      position.rest = texts.map (fun text => .line (Text.encodeUtf8 text)) ∧
      ∀ text ∈ texts, contentLength (Text.encodeUtf8 text) ≤ limits.lineLength := by
  induction position using readLogicalRow_induction limits with
  | step position ih =>
      cases he : (readLogicalRow limits position).isEnd with
      | true =>
          rw [rowReads_of_isEnd he] at h ⊢
          obtain ⟨more, ho⟩ := List.forall_mem_singleton.1 h
          have hmore : more = false := by simpa [RowRead.isEnd_of_ok ho] using he
          obtain ⟨hrest, -⟩ := readLogicalRow_end (hmore ▸ ho)
          refine ⟨[], [], ?_, List.forall_mem_nil _, hrest, List.forall_mem_nil _⟩
          rw [readLogicalRow, hrest]
          rfl
      | false =>
          rw [rowReads_of_not_isEnd he] at h ⊢
          obtain ⟨⟨more, ho⟩, hlater⟩ := List.forall_mem_cons.1 h
          have hmore : more = true := by simpa [RowRead.isEnd_of_ok ho] using he
          obtain rfl := hmore
          obtain ⟨first, hlines, hlengths, hline, hfingerprint, -⟩ := readRowFrom_makes ho
          obtain ⟨whole, texts, hreads, hwhole, hrest, hlater⟩ := ih he hlater
          refine ⟨readLogicalRow limits position :: whole, first ++ texts, ?_, ?_, ?_, ?_⟩
          · have hn : (readLogicalRow limits position).position.line =
                position.line + first.length := hline
            have hf : (readLogicalRow limits position).position.fingerprint =
                (first.map Text.trim).foldl Fingerprint.add position.fingerprint := hfingerprint
            rw [hreads, hn, hf, List.length_append, List.map_append, List.foldl_append,
              Nat.add_assoc]
            rfl
          · exact List.forall_mem_cons.2 ⟨ho, hwhole⟩
          · rw [hlines, List.map_append, ← hrest]
            rfl
          · exact List.forall_mem_append.2 ⟨hlengths, hlater⟩

/-- One call of a sink by its reader, or by its owner. -/
inductive SinkCall
  | start (source : String) (options : SourceOptions)
  | row (row : Row) (place : RowPlace)
  | finish (place : RowPlace)

structure PlacedRow where
  row : Row
  place : RowPlace
deriving DecidableEq, Repr

def PlacedRow.call (placed : PlacedRow) : SinkCall := .row placed.row placed.place

namespace Sink

def perform (sink : Sink σ) : SinkCall → σ → Except ReadFailure Unit × σ
  | .start source options, state => sink.start source options state
  | .row row place, state => ((sink.take row place state).outcome, (sink.take row place state).state)
  | .finish place, state => sink.finish place state

def run (sink : Sink σ) : List SinkCall → σ → Except ReadFailure Unit × σ
  | [], state => (.ok (), state)
  | call :: calls, state =>
      match (sink.perform call state).1 with
      | .error error => (.error error, (sink.perform call state).2)
      | .ok () => sink.run calls (sink.perform call state).2

theorem run_cons_of_ok {sink : Sink σ} {call : SinkCall} {state next : σ}
    (h : sink.perform call state = (.ok (), next)) (calls : List SinkCall) :
    sink.run (call :: calls) state = sink.run calls next := by
  simp [run, h]

theorem run_append (sink : Sink σ) (calls more : List SinkCall) (state : σ) :
    sink.run (calls ++ more) state =
      match (sink.run calls state).1 with
      | .error error => (.error error, (sink.run calls state).2)
      | .ok () => sink.run more (sink.run calls state).2 := by
  induction calls generalizing state with
  | nil => rfl
  | cons call calls ih =>
      simp only [List.cons_append, run]
      cases (sink.perform call state).1 with
      | error error => rfl
      | ok _ => exact ih _

/-- What every call keeps, whether it fails or not, a run of calls keeps. -/
theorem run_keeps {sink : Sink σ} {p : σ → Prop}
    (hperform : ∀ call state, p state → p (sink.perform call state).2) (calls : List SinkCall)
    {state : σ} (h : p state) : p (sink.run calls state).2 := by
  induction calls generalizing state with
  | nil => exact h
  | cons call calls ih =>
      simp only [run]
      split
      · exact hperform call state h
      · exact ih (hperform call state h)

end Sink

/-- The rows with fields among some attempts to read one, up to the first failure. -/
def placedRows (source : String) (verbose : Bool) : List RowRead → List PlacedRow
  | [] => []
  | read :: reads =>
      match read.outcome with
      | .error _ => []
      | .ok _ =>
          if read.row.isEmpty then placedRows source verbose reads
          else ⟨read.row, ⟨source, read.position.line, verbose⟩⟩ :: placedRows source verbose reads

theorem mem_placedRows_cons {source : String} {verbose : Bool} {read : RowRead}
    {reads : List RowRead} {row : PlacedRow} (h : row ∈ placedRows source verbose (read :: reads)) :
    (∃ more, read.outcome = .ok more) ∧
      (row = ⟨read.row, source, read.position.line, verbose⟩ ∨
        row ∈ placedRows source verbose reads) := by
  cases ho : read.outcome with
  | error failure => simp [placedRows, ho] at h
  | ok more =>
      refine ⟨⟨more, rfl⟩, ?_⟩
      simp only [placedRows, ho] at h
      split at h
      · exact .inr h
      · exact List.mem_cons.1 h

theorem placedRows_drop {limits : Limits} {lines : List LineRead} {position : Position}
    (source : String) (verbose : Bool) (hposition : position.rest = lines.drop position.line) :
    ∀ row ∈ placedRows source verbose (rowReads limits position),
      ∃ read ∈ rowReads limits position, read.row = row.row ∧ read.position.line = row.place.line ∧
        read.position.rest = lines.drop row.place.line := by
  induction position using readLogicalRow_induction limits with
  | step position ih =>
      intro row hrow
      have hcounts : (readLogicalRow limits position).CountsLines position.line position.rest :=
        readRowFrom_countsLines _ _ _ _ _ _
      rw [rowReads_eq] at hrow ⊢
      generalize readLogicalRow limits position = read at *
      have hhead : (∃ more, read.outcome = .ok more) →
          read.position.rest = lines.drop read.position.line := by
        rintro ⟨more, ho⟩
        obtain ⟨taken, hline, hrest⟩ := hcounts more ho
        rw [hrest, hposition, List.drop_drop, hline]
      cases he : read.isEnd with
      | true =>
          rw [he, if_pos rfl] at hrow
          obtain ⟨ho, rfl | hrow⟩ := mem_placedRows_cons hrow
          · exact ⟨read, by simp, rfl, rfl, hhead ho⟩
          · cases hrow
      | false =>
          rw [he, if_neg (by simp)] at hrow
          obtain ⟨ho, rfl | hrow⟩ := mem_placedRows_cons hrow
          · exact ⟨read, by simp, rfl, rfl, hhead ho⟩
          · obtain ⟨next, hnext, hrest⟩ := ih he (hhead ho) row hrow
            exact ⟨next, by simp [hnext], hrest⟩

theorem placedRows_place (source : String) (verbose : Bool) (reads : List RowRead) :
    ∀ row ∈ placedRows source verbose reads,
      row.place.source = source ∧ row.place.verbose = verbose := by
  induction reads with
  | nil => simp [placedRows]
  | cons read reads ih =>
      intro row hrow
      obtain ⟨-, rfl | hrow⟩ := mem_placedRows_cons hrow
      · exact ⟨rfl, rfl⟩
      · exact ih row hrow

def textFailure? (source : String) : List RowRead → Option ReadFailure
  | [] => none
  | read :: reads =>
      match read.outcome with
      | .error failure => some (.ofText source read.position.line failure)
      | .ok _ => textFailure? source reads

theorem textFailure?_cons_eq_none {source : String} {read : RowRead} {reads : List RowRead} :
    textFailure? source (read :: reads) = none ↔
      (∃ more, read.outcome = .ok more) ∧ textFailure? source reads = none := by
  cases ho : read.outcome <;> simp [textFailure?, ho]

theorem textFailure?_eq_none_iff {source : String} {reads : List RowRead} :
    textFailure? source reads = none ↔ ∀ read ∈ reads, ∃ more, read.outcome = .ok more := by
  induction reads with
  | nil => simp [textFailure?]
  | cons read reads ih => rw [textFailure?_cons_eq_none, ih, List.forall_mem_cons]

theorem textFailure?_eq_none_of_source {source other : String} {reads : List RowRead}
    (h : textFailure? source reads = none) : textFailure? other reads = none :=
  textFailure?_eq_none_iff.2 (textFailure?_eq_none_iff.1 h)

def endOfReads (reads : List RowRead) : Position := (reads.getLast?.map (·.position)).getD {}

def Sink.KeepsRows (sink : Sink σ) : Prop :=
  ∀ row place state, row ≠ [] → (sink.take row place state).row ≠ []

variable {sink : Sink σ} {limits : Limits} {source : String} {verbose : Bool}

theorem Sink.readRows_eq (rows : Nat) (position : Position) (state : σ) :
    sink.readRows limits source verbose rows position state =
      let step := sink.readRow limits source verbose position state
      match step.outcome with
      | .error error => (.error error, step.position, step.state)
      | .ok false => (.ok rows, step.position, step.state)
      | .ok true =>
          sink.readRows limits source verbose (if step.row.isEmpty then rows else rows + 1)
            step.position step.state := by
  rw [readRows]
  simp only
  split <;> rename_i h <;> rw [h]

theorem endOfReads_cons_of_ne_nil (read : RowRead) {reads : List RowRead} (h : reads ≠ []) :
    endOfReads (read :: reads) = endOfReads reads := by
  cases reads with
  | nil => exact absurd rfl h
  | cons next reads => simp [endOfReads, List.getLast?_cons_cons]

theorem rowReads_ne_nil (limits : Limits) (position : Position) : rowReads limits position ≠ [] := by
  rw [rowReads_eq]
  split <;> simp

/-- Reading rows into a sink gives it the rows with fields in order, until it fails or
the text does. A row counts unless the sink leaves no fields in it. -/
theorem Sink.readRows_eq_run (sink : Sink σ) (limits : Limits) (source : String) (verbose : Bool)
    (rows : Nat) (position : Position) (state : σ) :
    let reads := rowReads limits position
    let placed := placedRows source verbose reads
    let result := sink.readRows limits source verbose rows position state
    let ran := sink.run (placed.map PlacedRow.call) state
    result.2.2 = ran.2 ∧
      match ran.1, textFailure? source reads with
      | .error error, _ => result.1 = .error error
      | .ok (), some failure => result.1 = .error failure
      | .ok (), none => result.2.1 = endOfReads reads ∧ ∃ counted, result.1 = .ok counted ∧
          (sink.KeepsRows → counted = rows + placed.length) := by
  intro reads placed
  induction position using readLogicalRow_induction limits generalizing rows state with
  | step position ih =>
      simp only [reads, placed]
      rw [readRows_eq, rowReads_eq]
      simp only [readRow, accept]
      generalize hread : readLogicalRow limits position = read at *
      cases ho : read.outcome with
      | error failure =>
          have he : read.isEnd = false := by simp [RowRead.isEnd, ho]
          simp [he, ho, placedRows, textFailure?, run]
      | ok more =>
          cases more with
          | false =>
              have he : read.isEnd = true := RowRead.isEnd_of_ok ho
              have hr : read.row = [] := hread ▸ (readLogicalRow_end (hread ▸ ho)).2
              simp [he, ho, hr, placedRows, textFailure?, run, endOfReads]
          | true =>
              have he : read.isEnd = false := RowRead.isEnd_of_ok ho
              have hend := endOfReads_cons_of_ne_nil read (rowReads_ne_nil limits read.position)
              by_cases hr : read.row = []
              · have hi := ih he rows state
                simpa [he, ho, hr, placedRows, textFailure?, hend] using hi
              · let place : RowPlace := ⟨source, read.position.line, verbose⟩
                cases ht : (sink.take read.row place state).outcome with
                | error error =>
                    simp [he, ho, hr, placedRows, place, ht, Except.map, run, perform,
                      PlacedRow.call]
                | ok _ =>
                    cases hleft : (sink.take read.row place state).row with
                    | nil =>
                        have hlost : ¬sink.KeepsRows := fun hkeep => hkeep _ place state hr hleft
                        have hi := ih he rows (sink.take read.row place state).state
                        simpa [he, ho, hr, placedRows, textFailure?, hend, place, ht, hleft,
                          hlost, Except.map, run, perform, PlacedRow.call] using hi
                    | cons value left =>
                        have hi := ih he (rows + 1) (sink.take read.row place state).state
                        simpa [he, ho, hr, placedRows, textFailure?, hend, place, ht, hleft,
                          Except.map, run, perform, PlacedRow.call, Nat.add_right_comm,
                          Nat.add_assoc] using hi

def finishCalls (source : String) (options : SourceOptions) (reads : List RowRead) :
    List SinkCall :=
  match textFailure? source reads with
  | some _ => []
  | none => [.finish ⟨source, (endOfReads reads).line, options.verbose⟩]

def readScript (limits : Limits) (source : String) (options : SourceOptions) (feed : Feed) :
    List SinkCall :=
  let reads := rowReads limits (.ofFeed limits feed)
  .start source options ::
    ((placedRows source options.verbose reads).map PlacedRow.call ++ finishCalls source options reads)

theorem Sink.readToEnd_run (sink : Sink σ) (config : ReadingConfig) (source : String)
    (options : SourceOptions) (feed : Feed) (state : σ) :
    let reads := rowReads config.limits (.ofFeed config.limits feed)
    let result := sink.readToEnd config source options feed state
    let ran := sink.run (readScript config.limits source options feed) state
    result.2 = ran.2 ∧
      match ran.1, textFailure? source reads with
      | .error error, _ => result.1 = .error error
      | .ok (), some failure => result.1 = .error failure
      | .ok (), none => ∃ summary, result.1 = .ok summary ∧
          summary.fingerprint = (endOfReads reads).fingerprint ∧ summary.modified = none ∧
          (sink.KeepsRows → summary.rows = (placedRows source options.verbose reads).length) := by
  intro reads
  have hrows := readRows_eq_run sink config.limits source options.verbose 0
    (.ofFeed config.limits feed) (sink.start source options state).2
  simp only [readToEnd, readScript, finishCalls, run, perform]
  cases hs : sink.start source options state with
  | mk started state' =>
      cases started with
      | error error => simp
      | ok _ =>
          simp only [hs, run_append] at hrows ⊢
          generalize hran : sink.run ((placedRows source options.verbose reads).map PlacedRow.call)
            state' = ran at *
          generalize hread : sink.readRows config.limits source options.verbose 0
            (.ofFeed config.limits feed) state' = result at *
          obtain ⟨outcome, position, final⟩ := result
          obtain ⟨ranOutcome, ranState⟩ := ran
          obtain ⟨hstate, houtcome⟩ := hrows
          simp only at hstate houtcome
          subst hstate
          cases ranOutcome with
          | error error => simp [houtcome]
          | ok _ =>
              cases hf : textFailure? source (rowReads config.limits (.ofFeed config.limits feed)) with
              | some failure =>
                  simp only [hf] at houtcome
                  simp [houtcome, run]
              | none =>
                  simp only [hf] at houtcome
                  obtain ⟨rfl, counted, rfl, hcounted⟩ := houtcome
                  rw [Nat.zero_add] at hcounted
                  simp only [reads, run, perform]
                  split <;> simp_all

theorem Sink.readToEnd_eq_run (hkeep : sink.KeepsRows) (config : ReadingConfig) (source : String)
    (options : SourceOptions) (feed : Feed) (state : σ) :
    let reads := rowReads config.limits (.ofFeed config.limits feed)
    let result := sink.readToEnd config source options feed state
    let ran := sink.run (readScript config.limits source options feed) state
    result.2 = ran.2 ∧
      match ran.1, textFailure? source reads with
      | .error error, _ => result.1 = .error error
      | .ok (), some failure => result.1 = .error failure
      | .ok (), none => result.1 = .ok
          { fingerprint := (endOfReads reads).fingerprint,
            rows := (placedRows source options.verbose reads).length } := by
  intro reads result ran
  obtain ⟨hstate, houtcome⟩ := sink.readToEnd_run config source options feed state
  refine ⟨hstate, ?_⟩
  cases hran : ran.1 with
  | error error => simpa only [ran, hran] using houtcome
  | ok _ =>
      cases hf : textFailure? source reads with
      | some failure => simpa only [ran, reads, hran, hf] using houtcome
      | none =>
          simp only [ran, reads, hran, hf] at houtcome
          obtain ⟨⟨fingerprint, modified, rows⟩, hok, rfl, rfl, hcounted⟩ := houtcome
          obtain rfl : rows = _ := hcounted hkeep
          exact hok

theorem Sink.readToEnd_congr (hkeep : sink.KeepsRows) (config : ReadingConfig) (source : String)
    (options : SourceOptions) (feed : Feed) {state other : σ}
    (h : (sink.run (readScript config.limits source options feed) state).1 =
      (sink.run (readScript config.limits source options feed) other).1) :
    (sink.readToEnd config source options feed state).1 =
      (sink.readToEnd config source options feed other).1 := by
  have hstate := (readToEnd_eq_run hkeep config source options feed state).2
  have hother := (readToEnd_eq_run hkeep config source options feed other).2
  rw [h] at hstate
  cases hran : (sink.run (readScript config.limits source options feed) other).1 with
  | error error =>
      rw [hran] at hstate hother
      rw [hstate, hother]
  | ok _ =>
      rw [hran] at hstate hother
      cases hf : textFailure? source (rowReads config.limits (.ofFeed config.limits feed)) <;>
        simp only [hf] at hstate hother <;> rw [hstate, hother]

end DefinitionFiles
