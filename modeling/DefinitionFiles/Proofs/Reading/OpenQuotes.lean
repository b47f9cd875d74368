import DefinitionFiles.Proofs.Reading.Padding
import DefinitionFiles.Proofs.Row.OpenQuotes

namespace DefinitionFiles

open Text

/-- A source the text of which fails gives a sink the rows before that, and the failure unless the
sink fails on one of them. -/
theorem Sink.readSource_failed {σ : Type} (sink : Sink σ) {config : ReadingConfig} {feed : Feed}
    {before later : List RowRead} {failing : RowRead} {failure : TextFailure}
    (hreads : rowReads config.limits (.ofFeed config.limits feed) = before ++ failing :: later)
    (hbefore : ∀ read ∈ before, read.outcome = .ok true)
    (hfailing : failing.outcome = .error failure) (source : String) (options : SourceOptions)
    (state : σ) :
    let calls := .start source options ::
      (placedRows source options.verbose before).map PlacedRow.call
    let read := sink.readSource config source options feed state
    read.state = (sink.run calls state).2 ∧
      read.outcome =
        match (sink.run calls state).1 with
        | .error error => .error error
        | .ok () => .error (.ofText source failing.position.line failure) := by
  intro calls read
  obtain ⟨hplaced, htext⟩ :=
    placedRows_append source options.verbose hbefore (failing :: later)
  have hnone : placedRows source options.verbose (failing :: later) = [] := by
    simp [placedRows, hfailing]
  have hfailure : textFailure? source (failing :: later) =
      some (.ofText source failing.position.line failure) := by
    simp [textFailure?, hfailing]
  rw [hnone, List.append_nil] at hplaced
  rw [hfailure] at htext
  have hscript : readScript config.limits source options feed = calls := by
    simp only [readScript, finishCalls, hreads, hplaced, htext, List.append_nil, calls]
  obtain ⟨hstate, houtcome⟩ := sink.readToEnd_run config source options feed state
  rw [hreads, htext, hscript] at houtcome
  rw [hscript] at hstate
  refine ⟨hstate, ?_⟩
  cases hran : (sink.run calls state).1 with
  | error error =>
      rw [hran] at houtcome
      exact houtcome
  | ok _ =>
      rw [hran] at houtcome
      exact houtcome

/-- Quotes that stay open are found just if they are, and on the line of the mark that opens them,
and so are those that would take a row past the lines it may have. Whoever reads the source is
told so, and the sink is given no more than the rows before. -/
theorem readLogicalRow_openQuotes (config : ReadingConfig) (feed : Feed) (position : Position)
    (hposition : position.rest <:+ feed.reads config.limits.readLength) :
    let limits := config.limits
    let failing := readLogicalRow limits position
    (∀ number, failing.outcome = .error (.unclosedQuote number) ↔
      ∃ (texts : List String) (breaks : Nat), position.rest = texts.map LineRead.ofText ∧
        (∀ text ∈ texts, contentLength (encodeUtf8 text) ≤ limits.lineLength) ∧
        texts.length ≤ max 1 limits.linesPerRow ∧ OpenRow (texts.map trim) breaks ∧
        number = position.line + 1 + breaks) ∧
    (∀ number longest, failing.outcome = .error (.manyLines number longest) ↔
      longest = limits.linesPerRow ∧
      ∃ (texts : List String) (text : String) (later : List LineRead) (breaks : Nat),
        position.rest = (texts ++ [text]).map LineRead.ofText ++ later ∧
        (∀ other ∈ texts ++ [text], contentLength (encodeUtf8 other) ≤ limits.lineLength) ∧
        texts.length = max 1 limits.linesPerRow ∧ OpenRow (texts.map trim) breaks ∧
        number = position.line + 1 + breaks) ∧
    ∀ (before later : List RowRead),
      rowReads limits (.ofFeed limits feed) = before ++ failing :: later →
      (∀ read ∈ before, read.outcome = .ok true) →
      ∀ (number : Nat) (fault : ShapeFault),
        (failing.outcome = .error (.unclosedQuote number) ∧ fault = .unclosedQuote ∨
          ∃ longest, failing.outcome = .error (.manyLines number longest) ∧
            fault = .manyLines longest) →
        ∀ {σ : Type} (sink : Sink σ) (source : String) (options : SourceOptions) (state : σ),
          let calls := .start source options ::
            (placedRows source options.verbose before).map PlacedRow.call
          let read := sink.readSource config source options feed state
          read.state = (sink.run calls state).2 ∧
            read.outcome =
              match (sink.run calls state).1 with
              | .error error => .error error
              | .ok () => .error (.refused source number (.malformed fault)) := by
  intro limits failing
  have hbreaks : ∀ text, LineRead.ofText text ∈ position.rest → '\n' ∉ (trim text).toList :=
    fun text ht => lineFeed_not_mem_trim (Feed.lineFeed_of_mem_reads (hposition.subset ht))
  refine ⟨limits.outcome_unclosed_iff hbreaks position.line position.fingerprint,
    limits.outcome_many_iff hbreaks position.line position.fingerprint, ?_⟩
  rintro before later hreads hbefore number fault (⟨hfailing, rfl⟩ | ⟨longest, hfailing, rfl⟩) σ sink
    source options state
  · exact sink.readSource_failed hreads hbefore hfailing source options state
  · exact sink.readSource_failed hreads hbefore hfailing source options state

theorem readLogicalRow_openQuotes_second :
    let feed := Feed.ofText "z,1\na,\"b\",\"c\nd\" x,\"e\nf\n"
    let position := (readLogicalRow {} (.ofFeed {} feed)).position
    let sink : Sink (List Row) := .ofFunction fun row _ state => (.ok (), row, state ++ [row])
    let read := sink.readSource {} "x.csv" {} feed []
    position.rest <:+ feed.reads (Limits.readLength {}) ∧
      OpenRow ["a,\"b\",\"c", "d\" x,\"e", "f"] 1 ∧
      read.outcome = .error (.refused "x.csv" 3 (.malformed .unclosedQuote)) ∧
      read.state = [["z", "1"]] := by
  intro feed position sink read
  have hrest : position.rest <:+ feed.reads (Limits.readLength {}) :=
    ⟨[.ofText "z,1\n"], by decide +kernel⟩
  have hline : position.line = 1 := by decide +kernel
  obtain ⟨hunclosed, -, htold⟩ := readLogicalRow_openQuotes {} feed position hrest
  have hfirst : (readLogicalRow {} (.ofFeed {} feed)).outcome = .ok true := by
    decide +kernel
  have houtcome : (readLogicalRow {} position).outcome = .error (.unclosedQuote 3) := by
    decide +kernel
  obtain ⟨texts, breaks, htexts, -, -, hopen, hnumber⟩ := (hunclosed 3).1 houtcome
  have hbreaks : breaks = 1 := by omega
  have hlines : texts = ["a,\"b\",\"c\n", "d\" x,\"e\n", "f\n"] := by
    refine (List.map_inj_right fun text other h => ?_).1 (htexts.symm.trans ?_)
    · exact encodeUtf8_inj (LineRead.line.inj h)
    · decide +kernel
  have hreads : rowReads {} (.ofFeed {} feed) = [readLogicalRow {} (.ofFeed {} feed)] ++
      readLogicalRow {} position :: rowReads {} (readLogicalRow {} position).position := by
    rw [rowReads_of_not_isEnd (by decide +kernel), rowReads_of_not_isEnd (by decide +kernel)]
    rfl
  obtain ⟨hstate, hrefused⟩ := htold _ _ hreads (List.forall_mem_singleton.2 hfirst) 3 .unclosedQuote
    (.inl ⟨houtcome, rfl⟩) sink "x.csv" {} []
  refine ⟨hrest, ?_, ?_, ?_⟩
  · rw [hlines, hbreaks] at hopen
    exact hopen
  · rw [hrefused]
    rfl
  · rw [hstate]
    decide +kernel

end DefinitionFiles
