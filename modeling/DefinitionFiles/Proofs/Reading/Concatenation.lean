import DefinitionFiles.Proofs.Feed.Whole
import DefinitionFiles.Proofs.Reading.Fingerprint
import DefinitionFiles.Proofs.Row.RoundTrip
import DefinitionFiles.Proofs.Row.Steps

namespace DefinitionFiles

open Text

variable {limits : Limits} {position : Position}

theorem rowReads_early {whole later : List RowRead} (h : rowReads limits position = whole ++ later)
    (hlater : later ≠ []) (hwhole : ∀ read ∈ whole, read.EndsEarly) :
    ∃ start, rowReads limits start = later ∧
      ∀ more, rowReads limits { position with rest := position.rest ++ more } =
        whole.map (RowRead.withMore more) ++
          rowReads limits { start with rest := start.rest ++ more } := by
  induction position using readLogicalRow_induction limits generalizing whole with
  | step position ih =>
      cases whole with
      | nil => exact ⟨position, h, fun more => rfl⟩
      | cons first whole =>
          obtain ⟨hfirst, hnext⟩ := List.forall_mem_cons.1 hwhole
          cases he : (readLogicalRow limits position).isEnd with
          | true =>
              rw [rowReads_of_isEnd he, List.cons_append] at h
              exact absurd (List.append_eq_nil_iff.1 (List.cons.inj h).2.symm).2 hlater
          | false =>
              rw [rowReads_of_not_isEnd he, List.cons_append] at h
              obtain ⟨rfl, hreads⟩ := List.cons.inj h
              obtain ⟨start, hstart, hmore⟩ := ih he hreads hnext
              refine ⟨start, hstart, fun more => ?_⟩
              have hread : readLogicalRow limits { position with rest := position.rest ++ more } =
                  (readLogicalRow limits position).withMore more := readRowFrom_append hfirst more
              have he' : (readLogicalRow limits
                  { position with rest := position.rest ++ more }).isEnd = false := hread ▸ he
              rw [rowReads_of_not_isEnd he', hread, List.map_cons, List.cons_append]
              exact congrArg _ (hmore more)

theorem RowRead.endsEarly_of_ok {read : RowRead} (h : read.outcome = .ok true) :
    read.EndsEarly := by
  constructor <;> simp [h]

/-- Lines that are read to their end have no bearing on the reading of those after them, but for
their number and what they add to the fingerprint. -/
theorem rowReads_append {whole : List RowRead} {last : Position}
    (h : rowReads limits position = whole ++ [⟨.ok false, [], last⟩])
    (hwhole : ∀ read ∈ whole, read.outcome = .ok true) (more : List LineRead) :
    rowReads limits { position with rest := position.rest ++ more } =
      whole.map (RowRead.withMore more) ++ rowReads limits { last with rest := more } := by
  obtain ⟨start, hstart, hmore⟩ := rowReads_early h (List.cons_ne_nil _ _)
    fun read hread => RowRead.endsEarly_of_ok (hwhole read hread)
  have hread : readLogicalRow limits start = ⟨.ok false, [], last⟩ := by
    rw [rowReads_eq] at hstart
    split at hstart
    · exact (List.cons.inj hstart).1
    · exact absurd (List.cons.inj hstart).2 (rowReads_ne_nil _ _)
  have hrest : start.rest = [] := (readLogicalRow_end (congrArg RowRead.outcome hread)).1
  rw [readLogicalRow, hrest] at hread
  obtain rfl : (⟨[], start.line, start.fingerprint⟩ : Position) = last :=
    congrArg RowRead.position hread
  rw [hmore, hrest, List.nil_append]

theorem rowReads_taken (limits : Limits) (position : Position) :
    ∀ read ∈ rowReads limits position, ∃ taken, position.rest = taken ++ read.position.rest ∧
      read.position.line =
        position.line + (taken.map fun line => (line.shown limits).count).sum ∧
      read.position.fingerprint =
        (shownTexts limits taken).foldl Fingerprint.add position.fingerprint := by
  induction position using readLogicalRow_induction limits with
  | step position ih =>
      intro read hread
      have hfirst := readRowFrom_taken limits {} 0 position.line position.fingerprint position.rest
      rcases mem_rowReads_iff.1 hread with rfl | ⟨he, hread⟩
      · exact hfirst
      · obtain ⟨taken, hlines, hline, hfingerprint⟩ := hfirst
        obtain ⟨later, hrest, hline', hfingerprint'⟩ := ih he read hread
        rw [← readLogicalRow] at hlines hline hfingerprint
        refine ⟨taken ++ later, ?_, ?_, ?_⟩
        · rw [List.append_assoc, ← hrest]
          exact hlines
        · rw [hline', hline, List.map_append, List.sum_append, Nat.add_assoc]
        · rw [hfingerprint', hfingerprint, shownTexts_append, List.foldl_append]

def RowRead.shownRaised (f : Nat → Nat) (raised : Nat) (read : RowRead) :
    Except TextFailure Bool × Nat × Row :=
  (read.outcome.mapError (TextFailure.renumber f), read.position.line + raised, read.row)

/-- Rows of lines that are counted on from another number are the same but for the numbers. -/
theorem rowReads_raised (limits : Limits) (position : Position) (raised : Nat)
    (other : Fingerprint) {f : Nat → Nat} (hf : ∀ n, position.line < n → f n = n + raised) :
    (rowReads limits ⟨position.rest, position.line + raised, other⟩).map
        (fun read => (read.shown, read.position.rest)) =
      (rowReads limits position).map fun read =>
        (read.shownRaised f raised, read.position.rest) := by
  induction position using readLogicalRow_induction limits generalizing other with
  | step position ih =>
      obtain ⟨houtcome, hrow, hline, hrest⟩ := readRowFrom_renumber limits {} 0 position.line raised
        position.fingerprint other position.rest hf
      obtain ⟨taken, -, hcount, -⟩ := readRowFrom_taken limits {} 0 position.line
        position.fingerprint position.rest
      let read := readLogicalRow limits position
      let read' := readLogicalRow limits ⟨position.rest, position.line + raised, other⟩
      have hend : read'.isEnd = read.isEnd := by
        have ho : read'.outcome = read.outcome.mapError (TextFailure.renumber f) := houtcome
        simp only [RowRead.isEnd, ho]
        cases read.outcome <;> rfl
      have hshown : (read'.shown, read'.position.rest) =
          (read.shownRaised f raised, read.position.rest) := by
        simp only [RowRead.shown, RowRead.shownRaised, Prod.mk.injEq]
        exact ⟨⟨houtcome, hline, hrow⟩, hrest⟩
      cases he : read.isEnd with
      | true =>
          rw [rowReads_of_isEnd (hend.trans he), rowReads_of_isEnd he, List.map_singleton,
            List.map_singleton, hshown]
      | false =>
          have hposition : read'.position = ⟨read.position.rest, read.position.line + raised,
              read'.position.fingerprint⟩ := by
            rw [← show read'.position.rest = read.position.rest from hrest,
              ← show read'.position.line = read.position.line + raised from hline]
          have hlater : ∀ n, read.position.line < n → f n = n + raised := by
            intro n hn
            have hle : position.line ≤ read.position.line :=
              Nat.le.intro (show _ = read.position.line from hcount.symm)
            exact hf n (Nat.lt_of_le_of_lt hle hn)
          rw [rowReads_of_not_isEnd (hend.trans he), rowReads_of_not_isEnd he, List.map_cons,
            List.map_cons, hshown]
          exact congrArg _ (hposition ▸ ih he read'.position.fingerprint hlater)

def Position.textsRead (limits : Limits) (lines : List LineRead) (position : Position) :
    List String :=
  shownTexts limits (lines.take (lines.length - position.rest.length))

theorem fingerprint_of_textsRead {read : RowRead} (h : read ∈ rowReads limits position) :
    read.position.fingerprint =
      (read.position.textsRead limits position.rest).foldl Fingerprint.add
        position.fingerprint := by
  obtain ⟨taken, hlines, -, hfingerprint⟩ := rowReads_taken limits position read h
  have htaken : position.rest.take (position.rest.length - read.position.rest.length) = taken := by
    rw [hlines, List.length_append, Nat.add_sub_cancel, List.take_left']
    rfl
  rw [Position.textsRead, htaken, hfingerprint]

theorem told_rowReads_raised (limits : Limits) (position : Position) (raised : Nat)
    (other : Fingerprint) :
    (rowReads limits ⟨position.rest, position.line + raised, other⟩).map RowRead.told =
      (rowReads limits position).map fun read =>
        ((read.renumber (· + raised)).shown,
          (read.position.textsRead limits position.rest).foldl Fingerprint.add other) := by
  let tell (shown : (Except TextFailure Bool × Nat × Row) × List LineRead) :=
    (shown.1, (Position.textsRead limits position.rest { rest := shown.2 }).foldl
      Fingerprint.add other)
  have hraised := rowReads_raised limits position raised other (f := (· + raised)) fun _ _ => rfl
  calc (rowReads limits ⟨position.rest, position.line + raised, other⟩).map RowRead.told
      = ((rowReads limits ⟨position.rest, position.line + raised, other⟩).map
          fun read => (read.shown, read.position.rest)).map tell := by
        rw [List.map_map]
        apply List.map_congr_left
        intro read hread
        exact congrArg _ (fingerprint_of_textsRead hread)
    _ = _ := by
        rw [hraised, List.map_map]
        rfl

/-- Whether a feed holds whole rows: it breaks off between two lines, and its rows are read to
the end without a failure. -/
structure Limits.Closes (limits : Limits) (feed : Feed) : Prop where
  ends : feed.EndsLine
  reads : ∀ read ∈ rowReads limits (.ofFeed limits feed), ∃ more, read.outcome = .ok more
  /-- Counting has no end before a line does. -/
  counted : Limits.greatest ≤ limits.lineLength →
    ∀ line ∈ feed.lines, line.length < Limits.greatest

theorem Limits.Closes.of_lineFeed {feed : Feed}
    (hends : (feed.filter (· ≠ .interruption)).getLast?.all (· = .byte lineFeed) = true)
    (hreads : textFailure? "" (rowReads limits (.ofFeed limits feed)) = none)
    (hlength : limits.lineLength < Limits.greatest) : limits.Closes feed where
  ends signal hs := by
    rw [Option.mem_def.1 hs] at hends
    exact .inl (by simpa using hends)
  reads := textFailure?_eq_none_iff.1 hreads
  counted h := absurd hlength (Nat.not_lt.2 h)

theorem Limits.Closes.exists_last {feed : Feed} (h : limits.Closes feed) :
    ∃ whole last, rowReads limits (.ofFeed limits feed) = whole ++ [⟨.ok false, [], last⟩] ∧
      (∀ read ∈ whole, read.outcome = .ok true) ∧ last.rest = [] ∧
      last.line = feed.lines.length := by
  obtain ⟨whole, texts, hreads, hwhole, hrest, hlengths⟩ := rowReads_complete h.reads
  obtain ⟨lines, hlines, htrims⟩ := Feed.lines_of_reads h.counted hrest hlengths
  have hcount := congrArg List.length htrims
  have hlength := congrArg List.length hlines
  rw [List.length_map, List.length_map] at hcount
  rw [List.length_map] at hlength
  exact ⟨whole, _, hreads, hwhole, rfl, by rw [← hlength, hcount]; exact Nat.zero_add _⟩

/-- Reading whole rows and then others is reading the ones and then the others, whose lines are
counted on and add to the fingerprint so far. -/
theorem rowReads_concatenated (limits : Limits) {first : Feed} (hfirst : limits.Closes first)
    (second : Feed) :
    let others := rowReads limits (.ofFeed limits second)
    let texts (read : RowRead) := read.position.textsRead limits (second.reads limits.readLength)
    ∃ whole last, rowReads limits (.ofFeed limits first) = whole ++ [⟨.ok false, [], last⟩] ∧
      last.line = first.lines.length ∧
      (rowReads limits (.ofFeed limits (first ++ second))).map RowRead.told =
        whole.map RowRead.told ++ others.map (fun read =>
          ((read.renumber (· + first.lines.length)).shown,
            (texts read).foldl Fingerprint.add last.fingerprint)) ∧
      ∀ read ∈ others, read.position.fingerprint = (texts read).foldl Fingerprint.add {} := by
  intro others texts
  obtain ⟨whole, last, hreads, hwhole, -, hline⟩ := hfirst.exists_last
  refine ⟨whole, last, hreads, hline, ?_, fun read hread => fingerprint_of_textsRead hread⟩
  have hjoined : Position.ofFeed limits (first ++ second) =
      { Position.ofFeed limits first with
        rest := (Position.ofFeed limits first).rest ++ second.reads limits.readLength } := by
    rw [Position.ofFeed, Feed.reads_append hfirst.ends]
    rfl
  have hraised := told_rowReads_raised limits (.ofFeed limits second) last.line last.fingerprint
  have hnumber : (Position.ofFeed limits second).line + last.line = last.line := Nat.zero_add _
  rw [hnumber] at hraised
  rw [hjoined, rowReads_append hreads hwhole, List.map_append, List.map_map, ← hline]
  exact congrArg _ hraised

theorem rowReads_concatenated_unclosed :
    let limits : Limits := ⟨6, 2⟩
    let first := Feed.ofText "a,\"x\r\n y\"\n# c\n"
    let second : Feed := .interruption :: Feed.ofText "b,\"q\n"
    limits.Closes first ∧ (.error (.unclosedQuote 4), 4, ["b"]) ∈
      (rowReads limits (.ofFeed limits (first ++ second))).map RowRead.shown := by
  intro limits first second
  have hfirst : limits.Closes first :=
    .of_lineFeed (by decide +kernel) (by decide +kernel) (by decide)
  obtain ⟨whole, last, -, -, htold, -⟩ := rowReads_concatenated limits hfirst second
  have hcount : first.lines.length = 3 := by decide +kernel
  let unclosed := readLogicalRow limits (.ofFeed limits second)
  have hread : unclosed ∈ rowReads limits (.ofFeed limits second) := mem_rowReads_iff.2 (.inl rfl)
  have hshown : (rowReads limits (.ofFeed limits (first ++ second))).map RowRead.shown =
      whole.map RowRead.shown ++ (rowReads limits (.ofFeed limits second)).map
        (fun read => (read.renumber (· + 3)).shown) := by
    have hfst := congrArg (List.map Prod.fst) htold
    rw [List.map_append, List.map_map, List.map_map, List.map_map, hcount] at hfst
    exact hfst
  rw [hshown]
  exact ⟨hfirst, List.mem_append_right _ (List.mem_map.2 ⟨unclosed, hread, rfl⟩)⟩

end DefinitionFiles
