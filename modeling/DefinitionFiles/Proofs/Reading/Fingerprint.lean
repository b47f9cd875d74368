import DefinitionFiles.Command.Run
import DefinitionFiles.Proofs.Feed.Physical
import DefinitionFiles.Proofs.Reading.Script
import DefinitionFiles.Proofs.Row.Lines
import Mathlib

namespace DefinitionFiles

open Text

variable {σ : Type} {sink : Sink σ} {limits : Limits} {source : String} {verbose : Bool}

def normalizedSize (texts : List String) : Nat :=
  (texts.map fun text => (encodeUtf8 text).length + 1).sum

theorem Fingerprint.size_foldl_add (texts : List String) (fingerprint : Fingerprint) :
    (texts.foldl add fingerprint).size.toNat =
      (fingerprint.size.toNat + normalizedSize texts) % 2 ^ 64 := by
  induction texts generalizing fingerprint with
  | nil => exact (Nat.mod_eq_of_lt fingerprint.size.toNat_lt).symm
  | cons text texts ih =>
      have ha : (fingerprint.add text).size.toNat =
          (fingerprint.size.toNat + ((encodeUtf8 text).length + 1)) % 2 ^ 64 := by
        simp [add, addBytes, Nat.toUInt64]
      rw [List.foldl_cons, ih, ha, Nat.mod_add_mod, normalizedSize, normalizedSize,
        List.map_cons, List.sum_cons, Nat.add_assoc]

theorem rowReads_texts {position : Position}
    (h : textFailure? source (rowReads limits position) = none) :
    ∃ texts : List String, position.rest = texts.map (fun text => .line (encodeUtf8 text)) ∧
      (∀ text ∈ texts, contentLength (encodeUtf8 text) ≤ limits.lineLength) ∧
      (endOfReads (rowReads limits position)).fingerprint =
        (texts.map trim).foldl Fingerprint.add position.fingerprint := by
  obtain ⟨whole, texts, hreads, -, hrest, hlengths⟩ :=
    rowReads_complete (textFailure?_eq_none_iff.1 h)
  refine ⟨texts, hrest, hlengths, ?_⟩
  rw [hreads]
  simp [endOfReads]

theorem Sink.readRows_ok {rows total : Nat} {position final : Position} {state after : σ}
    (h : sink.readRows limits source verbose rows position state = (.ok total, final, after)) :
    textFailure? source (rowReads limits position) = none ∧
      final = endOfReads (rowReads limits position) := by
  induction position using readLogicalRow_induction limits generalizing rows state with
  | step position ih =>
      rw [readRows_eq] at h
      rw [rowReads_eq]
      simp only [readRow, accept] at h
      generalize hread : readLogicalRow limits position = read at *
      cases ho : read.outcome with
      | error failure => simp [ho] at h
      | ok more =>
          cases more with
          | false =>
              have he : read.isEnd = true := RowRead.isEnd_of_ok ho
              have hr : read.row = [] := hread ▸ (readLogicalRow_end (hread ▸ ho)).2
              have hf : read.position = final := by simp_all
              simp [he, ho, textFailure?, endOfReads, hf]
          | true =>
              have he : read.isEnd = false := RowRead.isEnd_of_ok ho
              rw [he, if_neg (by simp), textFailure?_cons_eq_none,
                endOfReads_cons_of_ne_nil _ (rowReads_ne_nil _ _)]
              suffices textFailure? source (rowReads limits read.position) = none ∧
                  final = endOfReads (rowReads limits read.position) from
                ⟨⟨⟨true, ho⟩, this.1⟩, this.2⟩
              by_cases hr : read.row = []
              · simp only [ho, hr, List.isEmpty_nil, if_true] at h
                exact ih he h
              · cases ht : (sink.take read.row ⟨source, read.position.line, verbose⟩ state).outcome with
                | error error => simp [ho, hr, ht, Except.map] at h
                | ok _ =>
                    simp only [ho, hr, ht, Except.map, List.isEmpty_iff, if_false] at h
                    exact ih he h

theorem Feed.lines_of_reads {feed : Feed} {texts : List String}
    (hlines : Limits.greatest ≤ limits.lineLength →
      ∀ line ∈ feed.lines, line.length < Limits.greatest)
    (hreads : feed.reads limits.readLength = texts.map (fun text => .line (encodeUtf8 text)))
    (hlengths : ∀ text ∈ texts, contentLength (encodeUtf8 text) ≤ limits.lineLength) :
    ∃ lines : List String, lines.map encodeUtf8 = feed.lines ∧ lines.map trim = texts.map trim := by
  have hfeed : ∀ reason, .failure reason ∉ feed := by
    intro reason hm
    have hf : .failed reason ∈ feed.reads limits.readLength :=
      failed_mem_readsFrom hm limits.readLength [] limits.readLength
    simp [hreads] at hf
  have hread : (texts.map encodeUtf8).map LineRead.line = feed.reads limits.readLength := by
    rw [hreads, List.map_map]
    rfl
  rcases reads_readsWhole hfeed limits.readLength with
    ⟨read, hr, hl⟩ | ⟨bytes, hb, hn, hlong, line, hline, hcut⟩
  · rw [hr, List.map_inj_right fun _ _ => LineRead.line.inj] at hread
    have hends : ∀ text ∈ texts, lineFeed ∉ (encodeUtf8 text).dropLast := by
      intro text ht
      have hm : .line (encodeUtf8 text) ∈ feed.reads limits.readLength := by
        rw [hreads]
        exact List.mem_map_of_mem ht
      exact lineFeed_of_mem_reads hm
    obtain ⟨lines, hls, hts⟩ := exists_lines hends
    exact ⟨lines, by rw [hls, hread, hl], hts⟩
  · -- a line that was cut is longer than the limit
    exfalso
    rw [← hread] at hb
    obtain ⟨_, hm, he⟩ := List.mem_map.1 hb
    obtain ⟨text, ht, rfl⟩ := List.mem_map.1 hm
    cases he
    have hlength := hlengths text ht
    rw [contentLength_of_not_mem hn] at hlength
    have hle := hcut.length_le
    simp only [Limits.readLength] at hlong
    have hg := hlines (by omega) line hline
    omega

theorem Sink.readToEnd_ok {reading : ReadingConfig} {options : SourceOptions} {feed : Feed}
    {state : σ} {summary : SourceSummary}
    (h : (sink.readToEnd reading source options feed state).1 = .ok summary) :
    let reads := rowReads reading.limits (.ofFeed reading.limits feed)
    textFailure? source reads = none ∧ summary.fingerprint = (endOfReads reads).fingerprint := by
  simp only [readToEnd] at h
  split at h
  · cases h
  · split at h
    · cases h
    · rename_i rows position after hrows
      obtain ⟨hf, rfl⟩ := readRows_ok hrows
      split at h
      · cases h
      · cases h
        exact ⟨hf, rfl⟩

theorem Sink.run_discard (calls : List SinkCall) : discard.run calls () = (.ok (), ()) := by
  induction calls with
  | nil => rfl
  | cons call calls ih => cases call <;> exact ih

theorem Sink.discard_readToEnd {reading : ReadingConfig} {feed : Feed}
    (h : textFailure? source (rowReads reading.limits (.ofFeed reading.limits feed)) = none)
    (options : SourceOptions) :
    ∃ summary, (discard.readToEnd reading source options feed ()).1 = .ok summary ∧
      summary.fingerprint =
        (endOfReads (rowReads reading.limits (.ofFeed reading.limits feed))).fingerprint := by
  have hkeep : discard.KeepsRows := fun _ _ _ h => h
  have hread := (readToEnd_eq_run hkeep reading source options feed ()).2
  rw [run_discard, h] at hread
  exact ⟨_, hread, rfl⟩

theorem Sink.exists_readPath_discard {reading : ReadingConfig} {path : String}
    {options : SourceOptions} {found : FileState} {state : σ} {summary : SourceSummary}
    (h : (sink.readPath reading path options found state).outcome = .ok summary)
    (options' : SourceOptions) :
    ∃ summary', (discard.readPath reading path options' found ()).outcome = .ok summary' ∧
      summary'.fingerprint = summary.fingerprint := by
  cases found with
  | unreadable reason => simp [readPath] at h
  | directory => simp [readPath] at h
  | file content modified =>
      simp only [readPath, readSource] at h ⊢
      cases ho : (sink.readToEnd reading path options content state).1 with
      | error failure => simp [ho, Except.map] at h
      | ok read =>
          obtain ⟨hf, hr⟩ := readToEnd_ok ho
          obtain ⟨found, hfound, hfp⟩ := discard_readToEnd hf options'
          have hs : { read with modified := some modified } = summary := by
            simpa [ho, Except.map] using h
          refine ⟨{ found with modified := some modified }, by simp [hfound, Except.map], ?_⟩
          rw [← hs, hr]
          exact hfp

/-- The fingerprint of a source is the one of its physical lines, whatever rows these make up
and whatever becomes of the rows. A file that passes a check has the fingerprint there that
it is hashed to. -/
theorem readSource_fingerprint :
    (∀ (σ : Type) (sink : Sink σ) (reading : ReadingConfig) (source : String)
      (options : SourceOptions) (feed : Feed) (state : σ) (summary : SourceSummary),
      (sink.readSource reading source options feed state).outcome = .ok summary →
        -- without a limit on lines, one is still cut after as many bytes as can be counted
        ((Limits.greatest ≤ reading.limits.lineLength →
            ∀ line ∈ feed.lines, line.length < Limits.greatest) →
          ∃ lines : List String, lines.map encodeUtf8 = feed.lines ∧
            summary.fingerprint = (lines.map trim).foldl Fingerprint.add {} ∧
            (normalizedSize (lines.map trim) < 2 ^ 64 →
              summary.fingerprint.size.toNat = normalizedSize (lines.map trim))) ∧
        ∀ (reading' : ReadingConfig) (source' : String) (options' : SourceOptions),
          reading'.limits = reading.limits →
            ∃ summary',
              (Sink.discard.readSource reading' source' options' feed ()).outcome = .ok summary' ∧
              summary'.fingerprint = summary.fingerprint) ∧
    ∀ (files : Command.Files) (config : MappingConfig) (required : List String)
      (options options' : SourceOptions) (checking : Command.CheckRun) (hashing : Command.HashRun)
      (path : String),
      let checked := Command.checkFile files config required options checking path
      let hashed := Command.hashFile files options' hashing path
      checked.failed = checking.failed →
        ∃ (fingerprint : Fingerprint) (modified : Nat),
          checked.report.output.back? = some s!"  Hash: {fingerprint.display}" ∧
          hashed.failed = hashing.failed ∧
          hashed.report.output = hashing.report.output.push (" ".intercalate
            [path, fingerprint.display, toString fingerprint.size, toString modified]) := by
  refine ⟨fun σ sink reading source options feed state summary h => ?_, ?_⟩
  · obtain ⟨hf, hr⟩ := Sink.readToEnd_ok h
    refine ⟨fun hlines => ?_, fun reading' source' options' hlimits => ?_⟩
    · obtain ⟨texts, hreads, hlengths, hfingerprint⟩ := rowReads_texts hf
      obtain ⟨lines, hl, ht⟩ := Feed.lines_of_reads hlines hreads hlengths
      have hfold : summary.fingerprint = (lines.map trim).foldl Fingerprint.add {} := by
        rw [hr, hfingerprint, ht]
        rfl
      refine ⟨lines, hl, hfold, fun hsize => ?_⟩
      rw [hfold, Fingerprint.size_foldl_add]
      simpa using Nat.mod_eq_of_lt hsize
    · rw [hr, ← hlimits]
      exact Sink.discard_readToEnd (textFailure?_eq_none_of_source (hlimits ▸ hf)) options'
  · intro files config required options options' checking hashing path checked hashed hpassed
    cases ho : (((Command.gatherer required).sink config).readPath {} path options (files path)
      checking.state).outcome with
    | error failure => simp [checked, Command.checkFile, ho] at hpassed
    | ok summary =>
        obtain ⟨summary', ho', hfingerprint⟩ := Sink.exists_readPath_discard ho options'
        refine ⟨summary.fingerprint, summary'.modifiedSeconds.getD 0, ?_, ?_, ?_⟩
        · simp [checked, Command.checkFile, ho, Command.Report.say]
        · simp [hashed, Command.hashFile, ho']
        · simp [hashed, Command.hashFile, ho', Command.Report.say, hfingerprint]

theorem readSource_fingerprint_grouped :
    let feed := Feed.ofText "# note\n a , \"x\n\n\ty\",z \n,,\r\n1,2,"
    let drain : Sink Nat := .ofFunction fun _ _ count => (.ok (), [], count + 1)
    let lines := ["# note", "a , \"x", "", "y\",z", ",,", "1,2,"]
    let fingerprint := lines.foldl Fingerprint.add {}
    (∃ summary, (drain.readSource {} "" {} feed 0).outcome = .ok summary ∧
      summary.fingerprint = fingerprint ∧ summary.fingerprint.size.toNat = 28) ∧
    (Command.checkFile (fun _ => .file feed 7) {} ["z"] {} {} "a.def").failed = 0 ∧
    ∃ (shown : Fingerprint) (modified : Nat),
      (Command.checkFile (fun _ => .file feed 7) {} ["z"] {} {} "a.def").report.output.back? =
        some s!"  Hash: {shown.display}" ∧
      (Command.hashFile (fun _ => .file feed 7) {} {} "a.def").report.output =
        #[" ".intercalate ["a.def", shown.display, toString shown.size, toString modified]] := by
  intro feed drain lines fingerprint
  refine ⟨?_, ?_⟩
  · have hok : (drain.readSource {} "" {} feed 0).outcome.toOption.isSome = true := by
      decide +kernel
    cases ho : (drain.readSource {} "" {} feed 0).outcome with
    | error failure => simp [ho, Except.toOption] at hok
    | ok summary =>
        obtain ⟨hlines, -⟩ := readSource_fingerprint.1 Nat drain {} "" {} feed 0 summary ho
        obtain ⟨read, hl, hf, hs⟩ := hlines (by decide)
        have hread : read.map trim = lines := by
          have hr : read = ["# note", " a , \"x", "", "\ty\",z ", ",,\r", "1,2,"] := by
            refine (List.map_inj_right fun text other h => encodeUtf8_inj h).1 (hl.trans ?_)
            decide +kernel
          rw [hr]
          decide +kernel
        have hsize : normalizedSize (read.map trim) = 28 := by
          rw [hread]
          decide +kernel
        rw [hread] at hf
        rw [hsize] at hs
        exact ⟨summary, rfl, hf, hs (by decide)⟩
  · have hpassed : (Command.checkFile (fun _ => .file feed 7) {} ["z"] {} {} "a.def").failed = 0 := by
      decide +kernel
    obtain ⟨shown, modified, hchecked, -, hhashed⟩ := readSource_fingerprint.2
      (fun _ => .file feed 7) {} ["z"] {} {} {} {} "a.def" hpassed
    exact ⟨hpassed, shown, modified, hchecked, hhashed⟩

end DefinitionFiles
