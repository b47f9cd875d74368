import DefinitionFiles.Proofs.Reading.Concatenation
import DefinitionFiles.Proofs.Reading.Trims

namespace DefinitionFiles

open Text

theorem TextFailure.renumber_id (failure : TextFailure) : failure.renumber id = failure := by
  cases failure <;> rfl

def RowPlace.renumber (f : Nat → Nat) (place : RowPlace) : RowPlace :=
  { place with line := f place.line }

def PlacedRow.renumber (f : Nat → Nat) (placed : PlacedRow) : PlacedRow :=
  { placed with place := placed.place.renumber f }

theorem PlacedRow.map_renumber_id (rows : List PlacedRow) : rows.map (renumber id) = rows :=
  List.map_id rows

theorem PlacedRow.map_renumber_renumber (f g : Nat → Nat) (rows : List PlacedRow) :
    (rows.map (renumber f)).map (renumber g) = rows.map (renumber fun n => g (f n)) :=
  List.map_map

namespace ReadFailure

def renumber (f : Nat → Nat) : ReadFailure → ReadFailure
  | unavailable source reason => unavailable source reason
  | refused source line refusal => refused source (f line) refusal

theorem map_renumber_id (failure? : Option ReadFailure) : failure?.map (renumber id) = failure? := by
  rcases failure? with - | ⟨-, -⟩ | ⟨-, -, -⟩ <;> rfl

theorem map_renumber_renumber (f g : Nat → Nat) (failure? : Option ReadFailure) :
    (failure?.map (renumber f)).map (renumber g) = failure?.map (renumber fun n => g (f n)) := by
  rcases failure? with - | ⟨-, -⟩ | ⟨-, -, -⟩ <;> rfl

theorem ofText_renumber (f : Nat → Nat) (source : String) (line other : Nat)
    (failure : TextFailure) :
    ofText source other (failure.renumber f) = (ofText source line failure).renumber f := by
  cases failure <;> rfl

end ReadFailure

section

variable {limits : Limits} {position : Position} {source : String} {verbose : Bool}
  {reads reads' whole : List RowRead} {raised : Nat} {f : Nat → Nat}

theorem textFailure?_renumber (source : String)
    (h : reads'.map RowRead.shown = reads.map (RowRead.shownRaised f raised)) :
    textFailure? source reads' = (textFailure? source reads).map (ReadFailure.renumber f) := by
  induction reads generalizing reads' with
  | nil =>
      obtain rfl := List.map_eq_nil_iff.1 h
      rfl
  | cons read reads ih =>
      obtain ⟨read', reads', rfl, hread, hreads⟩ := List.map_eq_cons_iff.1 h
      simp only [RowRead.shown, RowRead.shownRaised, Prod.mk.injEq] at hread
      obtain ⟨houtcome, -, -⟩ := hread
      cases ho : read.outcome with
      | ok more =>
          have ho' : read'.outcome = .ok more := by rw [houtcome, ho]; rfl
          simp only [textFailure?, ho, ho', ih hreads]
      | error failure =>
          have ho' : read'.outcome = .error (failure.renumber f) := by rw [houtcome, ho]; rfl
          simp only [textFailure?, ho, ho', Option.map_some]
          rw [ReadFailure.ofText_renumber f source read.position.line]

theorem placedRows_renumber
    (h : reads'.map RowRead.shown = reads.map (RowRead.shownRaised f raised))
    (hlines : ∀ row ∈ placedRows source verbose reads, f row.place.line = row.place.line + raised) :
    placedRows source verbose reads' =
      (placedRows source verbose reads).map (PlacedRow.renumber f) := by
  induction reads generalizing reads' with
  | nil =>
      obtain rfl := List.map_eq_nil_iff.1 h
      rfl
  | cons read reads ih =>
      obtain ⟨read', reads', rfl, hread, hreads⟩ := List.map_eq_cons_iff.1 h
      simp only [RowRead.shown, RowRead.shownRaised, Prod.mk.injEq] at hread
      obtain ⟨houtcome, hline, hrow⟩ := hread
      cases ho : read.outcome with
      | error failure =>
          have ho' : read'.outcome = .error (failure.renumber f) := by rw [houtcome, ho]; rfl
          simp only [placedRows, ho, ho', List.map_nil]
      | ok more =>
          have ho' : read'.outcome = .ok more := by rw [houtcome, ho]; rfl
          simp only [placedRows, ho, ho', hrow] at hlines ⊢
          cases hr : read.row.isEmpty with
          | true =>
              simp only [hr, if_true] at hlines ⊢
              exact ih hreads hlines
          | false =>
              simp only [hr, Bool.false_eq_true, if_false] at hlines ⊢
              obtain ⟨hfirst, hlater⟩ := List.forall_mem_cons.1 hlines
              simp only [List.map_cons, hline, ih hreads hlater, PlacedRow.renumber,
                RowPlace.renumber, hfirst]

theorem placedRows_congr (source : String) (verbose : Bool)
    (h : reads'.map RowRead.shown = reads.map RowRead.shown) :
    placedRows source verbose reads' = placedRows source verbose reads ∧
      textFailure? source reads' = textFailure? source reads := by
  have hshown : reads'.map RowRead.shown = reads.map (RowRead.shownRaised id 0) := by
    rw [h]
    apply List.map_congr_left
    intro read _
    cases ho : read.outcome <;>
      simp [RowRead.shown, RowRead.shownRaised, ho, Except.mapError, TextFailure.renumber_id]
  constructor
  · rw [placedRows_renumber hshown fun _ _ => rfl, PlacedRow.map_renumber_id]
  · rw [textFailure?_renumber source hshown, ReadFailure.map_renumber_id]

theorem placedRows_append (source : String) (verbose : Bool)
    (hwhole : ∀ read ∈ whole, read.outcome = .ok true) (reads : List RowRead) :
    placedRows source verbose (whole ++ reads) =
        placedRows source verbose whole ++ placedRows source verbose reads ∧
      textFailure? source (whole ++ reads) = textFailure? source reads := by
  induction whole with
  | nil => exact ⟨rfl, rfl⟩
  | cons read whole ih =>
      obtain ⟨ho, hwhole⟩ := List.forall_mem_cons.1 hwhole
      obtain ⟨hrows, hfailure⟩ := ih hwhole
      simp only [List.cons_append, placedRows, textFailure?, ho, hrows, hfailure, and_true]
      split <;> rfl

theorem exists_read_of_mem_placedRows {row : PlacedRow}
    (h : row ∈ placedRows source verbose reads) :
    ∃ read ∈ reads, (∃ more, read.outcome = .ok more) ∧ read.row ≠ [] ∧
      row = ⟨read.row, source, read.position.line, verbose⟩ := by
  induction reads with
  | nil => cases h
  | cons read reads ih =>
      cases ho : read.outcome with
      | error failure => simp [placedRows, ho] at h
      | ok more =>
          simp only [placedRows, ho] at h
          have hcases : row ∈ placedRows source verbose reads ∨
              read.row ≠ [] ∧ row = ⟨read.row, source, read.position.line, verbose⟩ := by
            split at h
            · exact .inl h
            · rename_i hr
              exact (List.mem_cons.1 h).symm.imp_right fun he => ⟨by simpa using hr, he⟩
          rcases hcases with h | ⟨hr, he⟩
          · obtain ⟨other, hother, hread⟩ := ih h
            exact ⟨other, List.mem_cons_of_mem read hother, hread⟩
          · exact ⟨read, List.mem_cons_self, ⟨more, ho⟩, hr, he⟩

theorem line_lt_of_mem_rowReads {read : RowRead} (h : read ∈ rowReads limits position)
    (hok : ∃ more, read.outcome = .ok more) (hrow : read.row ≠ []) :
    position.line < read.position.line := by
  induction position using readLogicalRow_induction limits with
  | step position ih =>
      have hfirst : readLogicalRow limits position = read → position.line < read.position.line := by
        rintro rfl
        obtain ⟨more, ho⟩ := hok
        cases more with
        | false => exact absurd (readLogicalRow_end ho).2 hrow
        | true =>
            obtain ⟨decoded, -, -, hline, -, hmakes⟩ := readRowFrom_makes ho
            rw [← readLogicalRow] at hline
            rw [hline]
            cases decoded with
            | nil => cases hmakes
            | cons text texts => exact Nat.lt_add_of_pos_right (Nat.succ_pos _)
      rcases mem_rowReads_iff.1 h with rfl | ⟨he, h⟩
      · exact hfirst rfl
      · obtain ⟨taken, -, hline, -⟩ :=
          rowReads_taken limits position _ (mem_rowReads_iff.2 (.inl rfl))
        have hlater := ih he h
        omega

theorem line_le_of_mem_whole {last : Position}
    (h : rowReads limits position = whole ++ [⟨.ok false, [], last⟩]) (hrest : last.rest = []) :
    ∀ read ∈ whole, read.position.line ≤ last.line := by
  intro read hread
  have htaken := rowReads_taken limits position
  rw [h] at htaken
  obtain ⟨taken, hlines, hline, -⟩ := htaken read (List.mem_append_left _ hread)
  obtain ⟨all, hall, hlast, -⟩ := htaken _ (List.mem_append_right _ (List.mem_singleton_self _))
  simp only [hrest, List.append_nil] at hall hlast
  rw [hline, hlast, ← hall, hlines, List.map_append, List.sum_append]
  omega

theorem placedRows_withMore_append (source : String) (verbose : Bool)
    (hwhole : ∀ read ∈ whole, read.outcome = .ok true) (more : List LineRead)
    (reads : List RowRead) :
    placedRows source verbose (whole.map (RowRead.withMore more) ++ reads) =
        placedRows source verbose whole ++ placedRows source verbose reads ∧
      textFailure? source (whole.map (RowRead.withMore more) ++ reads) =
        textFailure? source reads := by
  have hok : ∀ read ∈ whole.map (RowRead.withMore more), read.outcome = .ok true := by
    intro read hread
    obtain ⟨read, hmem, rfl⟩ := List.mem_map.1 hread
    exact hwhole read hmem
  have hshown : (whole.map (RowRead.withMore more)).map RowRead.shown = whole.map RowRead.shown := by
    rw [List.map_map]
    rfl
  obtain ⟨hrows, hfailure⟩ := placedRows_append source verbose hok reads
  rw [hrows, hfailure, (placedRows_congr source verbose hshown).1]
  exact ⟨rfl, rfl⟩

theorem placedRows_whole_renumber {last : Position}
    (h : rowReads limits position = whole ++ [⟨.ok false, [], last⟩]) (hrest : last.rest = [])
    (hf : ∀ n ≤ last.line, f n = n) :
    (placedRows source verbose whole).map (PlacedRow.renumber f) =
      placedRows source verbose whole := by
  refine (List.map_congr_left ?_).trans (List.map_id _)
  intro row hrow
  obtain ⟨read, hmem, -, -, rfl⟩ := exists_read_of_mem_placedRows hrow
  simp only [PlacedRow.renumber, RowPlace.renumber, id, hf _ (line_le_of_mem_whole h hrest read hmem)]

theorem placedRows_raised (limits : Limits) (source : String) (verbose : Bool)
    (position : Position) (raised : Nat) (other : Fingerprint)
    (hf : ∀ n, position.line < n → f n = n + raised) :
    let reads := rowReads limits position
    let reads' := rowReads limits ⟨position.rest, position.line + raised, other⟩
    placedRows source verbose reads' =
        (placedRows source verbose reads).map (PlacedRow.renumber f) ∧
      textFailure? source reads' = (textFailure? source reads).map (ReadFailure.renumber f) := by
  intro reads reads'
  have hraised : reads'.map RowRead.shown = reads.map (RowRead.shownRaised f raised) := by
    have hr := congrArg (List.map Prod.fst) (rowReads_raised limits position raised other hf)
    rw [List.map_map, List.map_map] at hr
    exact hr
  refine ⟨placedRows_renumber hraised ?_, textFailure?_renumber source hraised⟩
  intro row hrow
  obtain ⟨read, hmem, hread, hne, rfl⟩ := exists_read_of_mem_placedRows hrow
  exact hf _ (line_lt_of_mem_rowReads hmem hread hne)

/-- A line, trimmed, that makes a row without fields: blank, a comment, or split into empty
fields only. -/
inductive SaysNothing : String → Prop
  | blank : SaysNothing ""
  | comment (text : String) (h : startsComment text = true) : SaysNothing text
  | separators (text : String) (fieldStart : Bool)
      (hplace : (Split.line 0 text.toList {}).place = .outside fieldStart)
      (hrow : Row.isBlank (Split.line 0 text.toList {}).row = true) : SaysNothing text

theorem SaysNothing.step {text : String} (h : SaysNothing text) (limits : Limits) (line : Nat) :
    ∃ left, Split.step limits 0 line {} (.text text) = .ended (.ok true) left ∧
      left.row = [] := by
  cases h with
  | blank => exact ⟨{}, rfl, rfl⟩
  | comment _ h =>
      exact ⟨{}, by simp [Split.step, Split.overdue?, Split.ignores, h], rfl⟩
  | separators _ fieldStart hplace hrow =>
      have htake : Split.takeLine (line + 1) text {} =
          (Split.line 0 text.toList {}).relabel fun _ => line + 1 :=
        (Split.relabel_line (fun _ => line + 1) 0 text.toList {}).symm
      generalize Split.line 0 text.toList {} = split at hplace hrow htake
      obtain ⟨fields, unfinished, place⟩ := split
      obtain rfl : place = .outside fieldStart := hplace
      simp only [Split.step, Split.overdue?, htake, Split.relabel]
      split
      · exact ⟨{}, rfl, rfl⟩
      · exact ⟨_, rfl, (Split.row_unlessBlank _).trans (if_pos hrow)⟩

/-- A line by itself that is read whole and says nothing. -/
structure Limits.Skips (limits : Limits) (line : List UInt8) : Prop where
  whole : wholeLines line = [line]
  admits : limits.Admits line
  nothing : ∃ text, decodeUtf8 line = .ok text ∧ SaysNothing (trim text)

theorem Limits.Skips.read {line : List UInt8} (h : limits.Skips line) (rest : List LineRead)
    (n : Nat) (fingerprint : Fingerprint) :
    ∃ fingerprint', readLogicalRow limits ⟨.line line :: rest, n, fingerprint⟩ =
      ⟨.ok true, [], ⟨rest, n + 1, fingerprint'⟩⟩ := by
  obtain ⟨text, hd, hnothing⟩ := h.nothing
  obtain ⟨left, hstep, hrow⟩ := hnothing.step limits n
  refine ⟨fingerprint.add (trim text), ?_⟩
  rw [readLogicalRow, readRowFrom, LineRead.shown_line h.admits.1 hd]
  simp only [hstep, hrow]
  rfl

def insertedAfter (count n : Nat) : Nat := if n ≤ count then n else n + 1

/-- Between two rows, a line that says nothing gives no row, and raises the numbers after it. -/
theorem placedRows_inserted {last : Position}
    (h : rowReads limits position = whole ++ [⟨.ok false, [], last⟩])
    (hwhole : ∀ read ∈ whole, read.outcome = .ok true) (hrest : last.rest = [])
    {line : List UInt8} (hline : limits.Skips line) (more : List LineRead) (source : String)
    (verbose : Bool) :
    let plain := rowReads limits { position with rest := position.rest ++ more }
    let padded := rowReads limits { position with rest := position.rest ++ .line line :: more }
    let f := insertedAfter last.line
    placedRows source verbose padded =
        (placedRows source verbose plain).map (PlacedRow.renumber f) ∧
      textFailure? source padded = (textFailure? source plain).map (ReadFailure.renumber f) := by
  intro plain padded f
  obtain ⟨fingerprint, hread⟩ := hline.read more last.line last.fingerprint
  let later := rowReads limits { last with rest := more }
  let later' := rowReads limits ⟨more, last.line + 1, fingerprint⟩
  have hskip : rowReads limits { last with rest := .line line :: more } =
      ⟨.ok true, [], ⟨more, last.line + 1, fingerprint⟩⟩ :: later' := by
    rw [rowReads_eq, hread]
    rfl
  have hplain : plain = whole.map (RowRead.withMore more) ++ later := rowReads_append h hwhole more
  have hpadded : padded = whole.map (RowRead.withMore (.line line :: more)) ++
      ⟨.ok true, [], ⟨more, last.line + 1, fingerprint⟩⟩ :: later' := by
    rw [← hskip]
    exact rowReads_append h hwhole (.line line :: more)
  have hkeep : ∀ n ≤ last.line, f n = n := fun n hn => if_pos hn
  have hraise : ∀ n, last.line < n → f n = n + 1 := fun n hn => if_neg (Nat.not_le.2 hn)
  obtain ⟨hrows, hfailure⟩ :=
    placedRows_raised limits source verbose { last with rest := more } 1 fingerprint hraise
  obtain ⟨hplainRows, hplainFailure⟩ :=
    placedRows_withMore_append source verbose hwhole more later
  obtain ⟨hpaddedRows, hpaddedFailure⟩ :=
    placedRows_withMore_append source verbose hwhole (.line line :: more) (_ :: later')
  constructor
  · rw [hpadded, hplain, hpaddedRows, hplainRows, List.map_append,
      placedRows_whole_renumber h hrest hkeep, ← hrows]
    rfl
  · rw [hpadded, hplain, hpaddedFailure, hplainFailure, ← hfailure]
    rfl

end

/-- A source with lines added between its rows that say nothing, and what becomes of the number
of a line. Lines are added one by one: behind a part that holds whole rows, the numbers after
that part are raised by one. -/
inductive Feed.Padded (limits : Limits) (plain : Feed) : Feed → (Nat → Nat) → Prop
  | plain : Padded limits plain plain id
  | inserted (before after : Feed) (line : List UInt8) (f : Nat → Nat)
      (h : Padded limits plain (before ++ after) f) (hbefore : limits.Closes before)
      (hline : limits.Skips line) (hends : line.getLast? = some lineFeed ∨ after = []) :
      Padded limits plain (before ++ (ofBytes line ++ after))
        fun n => insertedAfter before.lines.length (f n)
  /-- Behind the last line there is room for others once it is terminated. -/
  | terminated (before last : Feed) (text : String) (f : Nat → Nat)
      (h : Padded limits plain (before ++ last) f) (hbefore : before.EndsLine)
      (hfailure : ∀ reason, .failure reason ∉ last) (hlast : last.content = encodeUtf8 text)
      (hopen : lineFeed ∉ last.content) (hne : last.content ≠ [])
      (hlength : last.content.length ≤ limits.lineLength)
      (hcounted : last.content.length < Limits.greatest) :
      Padded limits plain (before ++ (last ++ ofBytes [lineFeed])) f
  /-- What comes after a failure is not read. -/
  | unread (before after after' : Feed) (f : Nat → Nat) (h : Padded limits plain (before ++ after) f)
      (hbefore : before.EndsLine)
      (hfails : ∃ whole read later, rowReads limits (.ofFeed limits before) = whole ++ read :: later ∧
        (∀ read ∈ whole, read.outcome = .ok true) ∧ read.EndsEarly ∧
          ∃ failure, read.outcome = .error failure) :
      Padded limits plain (before ++ after') f

namespace Feed

variable {limits : Limits} {before after after' last : Feed} {line : List UInt8} {text : String}

theorem ofFeed_append (hbefore : before.EndsLine) (after : Feed) :
    Position.ofFeed limits (before ++ after) = { Position.ofFeed limits before with
      rest := (Position.ofFeed limits before).rest ++ after.reads limits.readLength } := by
  rw [Position.ofFeed, reads_append hbefore]
  rfl

theorem reads_inserted (hline : limits.Skips line)
    (hends : line.getLast? = some lineFeed ∨ after = []) :
    (ofBytes line ++ after).reads limits.readLength =
      .line line :: after.reads limits.readLength := by
  have hlength := hline.admits.length_le
  obtain ⟨-, ⟨content, hc, rfl⟩ | ⟨hn, -, -⟩⟩ := wholeLines_eq_cons hline.whole
  · rw [List.length_append, List.length_singleton] at hlength
    exact reads_line hc hlength after
  · rcases hends with hl | rfl
    · exact absurd (List.mem_of_getLast? hl) hn
    · rw [List.append_nil]
      exact reads_whole hline.whole hlength

theorem shown_terminated (hfailure : ∀ reason, .failure reason ∉ last)
    (hlast : last.content = encodeUtf8 text) (hopen : lineFeed ∉ last.content)
    (hne : last.content ≠ []) (hlength : last.content.length ≤ limits.lineLength)
    (hcounted : last.content.length < Limits.greatest) :
    ((last ++ ofBytes [lineFeed]).reads limits.readLength).map (LineRead.shown limits) =
      (last.reads limits.readLength).map (LineRead.shown limits) := by
  have hroom : last.content.length + 1 ≤ limits.readLength := by
    simp only [Limits.readLength]
    omega
  have hwhole := wholeLines_of_not_mem hopen hne
  have hread : last.reads limits.readLength = [.line last.content] := by
    rw [reads_of_no_failure hfailure, reads_whole hwhole (by omega)]
    rfl
  have hread' : (last ++ ofBytes [lineFeed]).reads limits.readLength =
      [.line (last.content ++ [lineFeed])] := by
    have hcontent : content (last ++ ofBytes [lineFeed]) = last.content ++ [lineFeed] :=
      List.filterMap_append
    have hl := reads_line hopen hroom []
    rw [List.append_nil] at hl
    rw [reads_of_no_failure (by simpa [ofBytes] using hfailure), hcontent, hl]
    rfl
  have hfits : contentLength (last.content ++ [lineFeed]) ≤ limits.lineLength := by
    refine Nat.le_trans ?_ hlength
    simp only [contentLength, List.reverse_append, List.reverse_singleton, List.singleton_append,
      if_true, List.length_reverse]
    split
    · exact Nat.sub_le _ 1
    · exact Nat.le_refl _
  have hfits' : contentLength last.content ≤ limits.lineLength := by
    rwa [contentLength_of_not_mem hopen]
  rw [hread, hread', List.map_singleton, List.map_singleton]
  rw [hlast] at hfits hfits' ⊢
  rw [← encodeUtf8_push_lineFeed] at hfits ⊢
  simp [LineRead.shown, Nat.not_lt.2 hfits, Nat.not_lt.2 hfits', decodeUtf8_encodeUtf8,
    trim_push_blank text (show isBlank '\n' = true by decide)]

theorem placedRows_unread {whole later : List RowRead} {read : RowRead} {failure : TextFailure}
    (hbefore : before.EndsLine)
    (h : rowReads limits (.ofFeed limits before) = whole ++ read :: later)
    (hwhole : ∀ read ∈ whole, read.outcome = .ok true) (hearly : read.EndsEarly)
    (ho : read.outcome = .error failure) (source : String) (verbose : Bool) (after : Feed) :
    let reads := rowReads limits (.ofFeed limits (before ++ after))
    placedRows source verbose reads = placedRows source verbose whole ∧
      textFailure? source reads = some (.ofText source read.position.line failure) := by
  obtain ⟨start, hstart, hmore⟩ := rowReads_early h (List.cons_ne_nil _ _)
    fun read hread => RowRead.endsEarly_of_ok (hwhole read hread)
  have hread : readLogicalRow limits start = read := by
    rw [rowReads_eq] at hstart
    split at hstart <;> exact (List.cons.inj hstart).1
  let more := after.reads limits.readLength
  have hfails : readLogicalRow limits { start with rest := start.rest ++ more } =
      read.withMore more := by
    rw [← hread] at hearly ⊢
    exact readRowFrom_append hearly more
  obtain ⟨others, hothers⟩ : ∃ others, rowReads limits { start with rest := start.rest ++ more } =
      read.withMore more :: others := by
    rw [rowReads_eq, hfails]
    split <;> exact ⟨_, rfl⟩
  have ho' : (read.withMore more).outcome = .error failure := ho
  obtain ⟨hrows, hfailure⟩ := placedRows_withMore_append source verbose hwhole more
    (read.withMore more :: others)
  intro reads
  have hreads : reads = _ := (congrArg (rowReads limits) (ofFeed_append hbefore after)).trans (hmore more)
  rw [hreads, hothers, hrows, hfailure]
  simp only [placedRows, textFailure?, ho', List.append_nil]
  exact ⟨trivial, rfl⟩

/-- A padded source has the rows and the failure of the plain one, with other numbers. -/
theorem Padded.placedRows {plain padded : Feed} {f : Nat → Nat} (h : Padded limits plain padded f)
    (source : String) (verbose : Bool) :
    let reads := rowReads limits (.ofFeed limits plain)
    let reads' := rowReads limits (.ofFeed limits padded)
    placedRows source verbose reads' =
        (placedRows source verbose reads).map (PlacedRow.renumber f) ∧
      textFailure? source reads' = (textFailure? source reads).map (ReadFailure.renumber f) := by
  induction h with
  | plain => exact ⟨(PlacedRow.map_renumber_id _).symm, (ReadFailure.map_renumber_id _).symm⟩
  | inserted before after line f h hbefore hline hends ih =>
      obtain ⟨whole, last, hreads, hwhole, hrest, hcount⟩ := hbefore.exists_last
      obtain ⟨hrows, hfailure⟩ := placedRows_inserted hreads hwhole hrest hline
        (after.reads limits.readLength) source verbose
      rw [← ofFeed_append hbefore.ends, hcount] at hrows hfailure
      rw [← reads_inserted hline hends, ← ofFeed_append hbefore.ends] at hrows hfailure
      intro reads reads'
      rw [hrows, hfailure, ih.1, ih.2, PlacedRow.map_renumber_renumber,
        ReadFailure.map_renumber_renumber]
      exact ⟨rfl, rfl⟩
  | terminated before last text f h hbefore hfailure hlast hopen hne hlength hcounted ih =>
      have hshown : (Position.ofFeed limits (before ++ (last ++ ofBytes [lineFeed]))).rest.map
            (LineRead.shown limits) =
          (Position.ofFeed limits (before ++ last)).rest.map (LineRead.shown limits) := by
        rw [ofFeed_append hbefore, ofFeed_append hbefore, List.map_append, List.map_append,
          shown_terminated hfailure hlast hopen hne hlength hcounted]
      have htold := congrArg (List.map Prod.fst) (rowReads_congr hshown rfl rfl)
      rw [List.map_map, List.map_map] at htold
      obtain ⟨hrows, hfailure⟩ := placedRows_congr source verbose htold
      intro reads reads'
      rw [hrows, hfailure]
      exact ih
  | unread before after after' f h hbefore hfails ih =>
      obtain ⟨whole, read, later, hreads, hwhole, hearly, failure, ho⟩ := hfails
      obtain ⟨hrows, hfailure⟩ :=
        placedRows_unread hbefore hreads hwhole hearly ho source verbose after
      obtain ⟨hrows', hfailure'⟩ :=
        placedRows_unread hbefore hreads hwhole hearly ho source verbose after'
      intro reads reads'
      rw [hrows', hfailure', ← hrows, ← hfailure]
      exact ih

end Feed

end DefinitionFiles
