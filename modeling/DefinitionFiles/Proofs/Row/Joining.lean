import DefinitionFiles.Proofs.Feed.Physical
import DefinitionFiles.Proofs.Row.Lines
import DefinitionFiles.Proofs.Row.RoundTrip

namespace DefinitionFiles

open Text

/-- One more line of a text between quotes: a value separator stands for the line break,
unless there is one. -/
def joinedWith (joined text : String) : String :=
  (if joined.back? = some valueSeparator then joined else joined.push valueSeparator) ++ text

def joinedText : List String → String
  | [] => ""
  | text :: texts => texts.foldl joinedWith text

theorem toList_joinedWith (joined text : String) :
    ∃ gap, (joinedWith joined text).toList = joined.toList ++ (gap ++ text.toList) ∧
      ∀ c ∈ gap, c = valueSeparator := by
  by_cases h : joined.back? = some valueSeparator
  · exact ⟨[], by simp [joinedWith, h], by simp⟩
  · exact ⟨[valueSeparator], by simp [joinedWith, h], by simp⟩

theorem ne_empty_joinedWith {joined : String} (h : joined ≠ "") (text : String) :
    joinedWith joined text ≠ "" := by
  obtain ⟨gap, hj, -⟩ := toList_joinedWith joined text
  intro he
  simp [he, h] at hj

theorem toList_foldl_joinedWith (joined : String) (texts : List String) :
    ∃ more, (texts.foldl joinedWith joined).toList = joined.toList ++ more ∧
      ∀ c ∈ more, c = valueSeparator ∨ ∃ text ∈ texts, c ∈ text.toList := by
  induction texts generalizing joined with
  | nil => exact ⟨[], by simp⟩
  | cons text texts ih =>
      obtain ⟨gap, hj, hgap⟩ := toList_joinedWith joined text
      obtain ⟨more, hm, hmem⟩ := ih (joinedWith joined text)
      refine ⟨gap ++ text.toList ++ more, ?_, ?_⟩
      · rw [List.foldl_cons, hm, hj, List.append_assoc]
      · intro c hc
        simp only [List.mem_append] at hc
        rcases hc with (hc | hc) | hc
        · exact .inl (hgap c hc)
        · exact .inr ⟨text, by simp, hc⟩
        · exact (hmem c hc).imp_right fun ⟨other, ho, hc⟩ => ⟨other, by simp [ho], hc⟩

theorem head?_joinedText {first : String} (h : first ≠ "") (texts : List String) :
    (joinedText (first :: texts)).toList.head? = first.toList.head? := by
  obtain ⟨more, hm, -⟩ := toList_foldl_joinedWith first texts
  obtain ⟨c, rest, hc⟩ := List.exists_cons_of_ne_nil (mt String.toList_eq_nil_iff.1 h)
  rw [joinedText, hm, hc]
  rfl

theorem getLast?_foldl_joinedWith (joined : String) (texts : List String) {last : String}
    (h : last ≠ "") :
    ((texts ++ [last]).foldl joinedWith joined).toList.getLast? = last.toList.getLast? := by
  obtain ⟨gap, hj, -⟩ := toList_joinedWith (texts.foldl joinedWith joined) last
  rcases List.eq_nil_or_concat last.toList with hl | ⟨before, c, hl⟩
  · exact absurd (String.toList_eq_nil_iff.1 hl) h
  · simp [List.foldl_append, hj, hl, List.getLast?_append]

theorem lineFeed_not_mem_joinedText {texts : List String} (h : ∀ text ∈ texts, '\n' ∉ text.toList) :
    '\n' ∉ (joinedText texts).toList := by
  cases texts with
  | nil => simp [joinedText]
  | cons first texts =>
      obtain ⟨more, hm, hmem⟩ := toList_foldl_joinedWith first texts
      rw [joinedText, hm, List.mem_append, not_or]
      refine ⟨h first (by simp), fun hc => ?_⟩
      rcases hmem _ hc with he | ⟨text, ht, hc⟩
      · exact absurd he (by decide)
      · exact h text (by simp [ht]) hc

namespace Split

variable {lineNo openedOn : Nat} {split : Split} {fieldStart : Bool}

theorem place_joinLine (split : Split) : split.joinLine.place = split.place := by
  simp only [joinLine]
  split <;> rfl

theorem scan_append (line more : List Char) (split : Split)
    (h : (scan lineNo line split).place = .quoted openedOn) :
    scan lineNo (line ++ more) split = scan lineNo more (scan lineNo line split) := by
  induction line, split using scan_induction lineNo with
  | done split =>
      rw [scan_nil] at h ⊢
      cases hp : split.place with
      | outside fieldStart => simp [endLine, hp, finishField] at h
      | quoted openedOn => simp [endLine, hp]
  | doubled rest fields text openedOn ih =>
      rw [scan_quoted_mark_mark] at h ⊢
      exact scan_quoted_mark_mark.trans (ih h)
  | closing rest fields text openedOn hrest ih =>
      rw [scan_quoted_mark hrest] at h ⊢
      cases rest with
      | nil => simp [scan_nil, endLine, finishField] at h
      | cons d rest => exact (scan_quoted_mark (by simpa using hrest)).trans (ih h)
  | inside c rest fields text openedOn hc ih =>
      rw [scan_quoted hc] at h ⊢
      exact (scan_quoted hc).trans (ih h)
  | separator rest fields text fieldStart ih =>
      rw [scan_separator] at h ⊢
      exact scan_separator.trans (ih h)
  | opening rest fields text ih =>
      rw [scan_mark] at h ⊢
      exact scan_mark.trans (ih h)
  | plain c rest fields text fieldStart hs hq ih =>
      rw [scan_outside hs hq] at h ⊢
      exact (scan_outside hs hq).trans (ih h)

theorem back?_scan (line : List Char) (split : Split)
    (h : (scan lineNo line split).place = .quoted openedOn) (hline : line ≠ []) :
    (scan lineNo line split).text.back? = some valueSeparator ↔
      line.getLast? = some valueSeparator := by
  induction line, split using scan_induction lineNo with
  | done split => exact absurd rfl hline
  | doubled rest fields text openedOn ih =>
      rw [scan_quoted_mark_mark] at h ⊢
      cases rest with
      | nil => simp [scan_nil, endLine, String.back?_eq]
      | cons d rest => simpa using ih h (by simp)
  | closing rest fields text openedOn hrest ih =>
      rw [scan_quoted_mark hrest] at h ⊢
      cases rest with
      | nil => simp [scan_nil, endLine, finishField] at h
      | cons d rest => simpa using ih h (by simp)
  | inside c rest fields text openedOn hc ih =>
      rw [scan_quoted hc] at h ⊢
      cases rest with
      | nil => simp [scan_nil, endLine, String.back?_eq]
      | cons d rest => simpa using ih h (by simp)
  | separator rest fields text fieldStart ih =>
      rw [scan_separator] at h ⊢
      cases rest with
      | nil => simp [scan_nil, endLine, finishField] at h
      | cons d rest => simpa using ih h (by simp)
  | opening rest fields text ih =>
      rw [scan_mark] at h ⊢
      cases rest with
      | nil => simp [scan_nil, endLine, String.back?_eq, quoteMark, valueSeparator]
      | cons d rest => simpa using ih h (by simp)
  | plain c rest fields text fieldStart hs hq ih =>
      rw [scan_outside hs hq] at h ⊢
      cases rest with
      | nil => simp [scan_nil, endLine, finishField] at h
      | cons d rest => simpa using ih h (by simp)

theorem text_scan_of_outside (line : List Char) (split : Split)
    (h : (scan lineNo line split).place = .outside fieldStart) :
    (scan lineNo line split).text = "" := by
  induction line, split using scan_induction lineNo with
  | done split =>
      rw [scan_nil] at h ⊢
      cases hp : split.place with
      | outside fieldStart => simp [endLine, hp, finishField]
      | quoted openedOn => simp [endLine, hp] at h
  | doubled rest fields text openedOn ih =>
      rw [scan_quoted_mark_mark] at h ⊢
      exact ih h
  | closing rest fields text openedOn hrest ih =>
      rw [scan_quoted_mark hrest] at h ⊢
      exact ih h
  | inside c rest fields text openedOn hc ih =>
      rw [scan_quoted hc] at h ⊢
      exact ih h
  | separator rest fields text fieldStart ih =>
      rw [scan_separator] at h ⊢
      exact ih h
  | opening rest fields text ih =>
      rw [scan_mark] at h ⊢
      exact ih h
  | plain c rest fields text fieldStart hs hq ih =>
      rw [scan_outside hs hq] at h ⊢
      exact ih h

theorem scan_joinedWith {n : Nat} {joined : String} (hjoined : joined ≠ "")
    (hplace : split.place = .quoted openedOn) (h : scan n joined.toList {} = split.relabel fun _ => n)
    (lineNo : Nat) (text : String) :
    scan n (joinedWith joined text).toList {} =
      (split.takeLine lineNo text).relabel fun _ => n := by
  have hquoted : (split.relabel fun _ => n).place = .quoted n := by simp [relabel, hplace]
  have hback : split.text.back? = some valueSeparator ↔ joined.back? = some valueSeparator := by
    have hb := back?_scan joined.toList {} (h ▸ hquoted) (by simpa using hjoined)
    rwa [h, ← String.back?_eq] at hb
  have htake : split.takeLine lineNo text = scan lineNo text.toList split.joinLine := by
    simp [takeLine, Split.line, place_joinLine, hplace]
  have happend (more : List Char) :
      scan n (joined.toList ++ more) {} = scan n more (split.relabel fun _ => n) := by
    rw [scan_append joined.toList more {} (h ▸ hquoted), h]
  rw [htake, relabel_scan, joinedWith, String.toList_append]
  -- the value separator that is added between the lines is one more character between quotes
  by_cases hb : joined.back? = some valueSeparator
  · have hj : split.joinLine = split := if_pos (hback.2 hb)
    rw [if_pos hb, happend, hj]
  · have hj : split.joinLine = split.push valueSeparator := if_neg (mt hback.1 hb)
    have hs : (split.relabel fun _ => n) = ⟨split.fields, split.text, .quoted n⟩ := by simp [relabel, hplace]
    have hp : ((split.push valueSeparator).relabel fun _ => n) =
        ⟨split.fields, split.text.push valueSeparator, .quoted n⟩ := by simp [relabel, push, hplace]
    rw [if_neg hb, String.toList_push, List.append_assoc, happend, hj, hs, hp]
    exact scan_quoted (by decide)

theorem Makes.joined {n line : Nat} {texts : List String} {row : Row}
    (h : Makes line split texts row) (hplace : split.place = .quoted openedOn) {joined : String}
    (hjoined : joined ≠ "") (hscan : scan n joined.toList {} = split.relabel fun _ => n) :
    ∃ fields fieldStart, scan n (texts.foldl joinedWith joined).toList {} =
      ⟨fields, "", .outside fieldStart⟩ ∧ row = Row.unlessBlank fields.toList := by
  induction h generalizing joined openedOn with
  | ignored line split text h => simp [ignores, hplace] at h
  | closed line split text fieldStart h hnext =>
      have hone := scan_joinedWith hjoined hplace hscan (line + 1) text
      rw [relabel_of_outside hnext] at hone
      have htext := text_scan_of_outside (joinedWith joined text).toList {} (hone ▸ hnext)
      refine ⟨(split.takeLine (line + 1) text).fields, fieldStart, ?_, rfl⟩
      rw [List.foldl_cons, List.foldl_nil, hone, ← hnext, ← htext, hone]
  | opened line split text openedOn texts row h hnext hrest ih =>
      exact ih hnext (ne_empty_joinedWith hjoined text)
        (scan_joinedWith hjoined hplace hscan (line + 1) text)

theorem Makes.exists_last {line : Nat} {texts : List String} {row : Row}
    (h : Makes line split texts row) (hplace : split.place = .quoted openedOn) :
    ∃ before last, texts = before ++ [last] ∧ last ≠ "" := by
  induction h generalizing openedOn with
  | ignored line split text h => simp [ignores, hplace] at h
  | closed line split text fieldStart h hnext =>
      refine ⟨[], text, rfl, ?_⟩
      rintro rfl
      simp [takeLine, hplace, Split.line, place_joinLine, scan_nil, endLine] at hnext
  | opened line split text openedOn texts row h hnext hrest ih =>
      obtain ⟨before, last, rfl, hlast⟩ := ih hnext
      exact ⟨text :: before, last, rfl, hlast⟩

theorem Makes.isTrimmed_joinedText {line : Nat} {texts : List String} {row : Row}
    (h : Makes line split texts row) (hplace : split.place = .outside fieldStart)
    (htexts : ∀ text ∈ texts, IsTrimmed text.toList) : IsTrimmed (joinedText texts).toList := by
  cases h with
  | ignored _ _ text h => exact htexts text (by simp)
  | closed _ _ text fieldStart h hnext => exact htexts text (by simp)
  | opened _ _ text openedOn texts _ h hnext hrest =>
      obtain ⟨before, last, rfl, hlast⟩ := hrest.exists_last hnext
      have hne : text ≠ "" := by
        rintro rfl
        simp [ignores, hplace] at h
      constructor
      · intro c hc
        rw [head?_joinedText hne] at hc
        exact (htexts text (by simp)).1 c hc
      · intro c hc
        rw [joinedText, getLast?_foldl_joinedWith text before hlast] at hc
        exact (htexts last (by simp)).2 c hc

theorem line_of_outside {n : Nat} {line : List Char} {start : Bool} {fields : Array String}
    {text : String}
    (h : (Split.line n line ⟨fields, text, .outside start⟩).place = .outside fieldStart)
    (lineNo : Nat) :
    Split.line lineNo line ⟨fields, text, .outside start⟩ =
      ⟨(Split.line n line ⟨fields, text, .outside start⟩).fields, "", .outside fieldStart⟩ := by
  by_cases hq : quoteMark ∈ line
  · have hline (m : Nat) : Split.line m line ⟨fields, text, .outside start⟩ =
        scan m line ⟨fields, text, .outside start⟩ := by simp [Split.line, hq]
    rw [hline n] at h ⊢
    have hscan := relabel_scan (fun _ => lineNo) n line ⟨fields, text, .outside start⟩
    rw [relabel_of_outside h] at hscan
    rw [hline lineNo, ← text_scan_of_outside line _ h, ← h]
    exact hscan.symm
  · have hline (m : Nat) : Split.line m line ⟨fields, text, .outside start⟩ =
        cut line ⟨fields, text, .outside start⟩ := by simp [Split.line, hq]
    obtain ⟨fields', -, hcut, -⟩ := cut_eq_scan n line hq fields text start start
    rw [hline n, hcut] at h ⊢
    rw [hline lineNo, hcut, ← h]

theorem line_of_quoted {n : Nat} {line : List Char} {start : Bool} {fields : Array String}
    {text : String}
    (h : (Split.line n line ⟨fields, text, .outside start⟩).place = .quoted openedOn) :
    Split.line n line ⟨fields, text, .outside start⟩ =
      scan n line ⟨fields, text, .outside start⟩ := by
  by_cases hq : quoteMark ∈ line
  · simp [Split.line, hq]
  · obtain ⟨fields', -, hcut, -⟩ := cut_eq_scan n line hq fields text start start
    simp [Split.line, hq, hcut] at h

/-- The row that some lines make up is that of their joined line. -/
theorem Makes.joinedText {line : Nat} {texts : List String} {row : Row}
    (h : Makes line {} texts row) (n : Nat) :
    let joined := joinedText texts
    if joined.isEmpty || startsComment joined then row = []
    else
      ∃ fields fieldStart, Split.line n joined.toList {} = ⟨fields, "", .outside fieldStart⟩ ∧
        row = Row.unlessBlank fields.toList := by
  cases h with
  | ignored _ _ text h =>
      have hi : (text.isEmpty || startsComment text) = true := h
      simp only [DefinitionFiles.joinedText, List.foldl_nil, hi, if_true]
      rfl
  | closed _ _ text fieldStart h hnext =>
      have hi : (text.isEmpty || startsComment text) = false := h
      simp only [DefinitionFiles.joinedText, List.foldl_nil, hi, Bool.false_eq_true, if_false]
      exact ⟨_, fieldStart, line_of_outside hnext n, rfl⟩
  | opened _ _ text openedOn texts _ h hnext hrest =>
      have hi : (text.isEmpty || startsComment text) = false := h
      have hne : text ≠ "" := by
        rintro rfl
        simp at hi
      have hscan : scan n text.toList {} =
          (Split.line (line + 1) text.toList {}).relabel fun _ => n := by
        rw [line_of_quoted hnext, relabel_scan]
        rfl
      obtain ⟨fields, fieldStart, hjoined, hrow⟩ := hrest.joined hnext hne hscan
      obtain ⟨fieldStart', hline⟩ := line_eq_scan hjoined
      have hhead := head?_joinedText hne texts
      have hcomment : startsComment (DefinitionFiles.joinedText (text :: texts)) = false := by
        simp only [Bool.or_eq_false_iff] at hi
        rw [startsComment, hhead]
        exact hi.2
      have hempty : (DefinitionFiles.joinedText (text :: texts)).isEmpty = false := by
        rw [Bool.eq_false_iff, ne_eq, String.isEmpty_iff]
        intro he
        rw [he] at hhead
        exact hne (String.toList_eq_nil_iff.1 (List.head?_eq_none_iff.1 hhead.symm))
      simp only [hempty, hcomment, Bool.or_self, Bool.false_eq_true, if_false]
      exact ⟨fields, fieldStart', hline, hrow⟩

end Split

theorem lineFeed_not_mem_trim {text : String} (h : lineFeed ∉ (encodeUtf8 text).dropLast) :
    '\n' ∉ (trim text).toList := by
  obtain ⟨line, hline, -, htrim⟩ := exists_line_of_encodeUtf8 h
  rw [← htrim]
  exact mt mem_trim hline

/-- A row that is spread over several physical lines reads the same from one: that on which
they are joined. -/
theorem readLogicalRow_joinedText (limits joinedLimits : Limits) (feed : Feed) (position : Position)
    (hposition : position.rest <:+ feed.reads limits.readLength)
    (h : (readLogicalRow limits position).outcome = .ok true) :
    let read := readLogicalRow limits position
    ∃ texts : List String,
      position.rest = texts.map (fun text => .line (encodeUtf8 text)) ++ read.position.rest ∧
      read.position.line = position.line + texts.length ∧
      let joined := joinedText (texts.map trim)
      (joinedLimits.Allow joined →
        readLogicalRow joinedLimits (.ofFeed joinedLimits (.ofText (joined.push '\n'))) =
          ⟨.ok true, read.row, ⟨[], 1, Fingerprint.add {} joined⟩⟩) := by
  intro read
  obtain ⟨texts, hlines, -, hline, -, hmakes⟩ := readRowFrom_makes h
  refine ⟨texts, hlines, hline, ?_⟩
  intro joined hallow
  have hlineFeed : '\n' ∉ joined.toList := by
    apply lineFeed_not_mem_joinedText
    intro trimmed htrimmed
    obtain ⟨text, ht, rfl⟩ := List.mem_map.1 htrimmed
    apply lineFeed_not_mem_trim
    apply Feed.lineFeed_of_mem_reads
    apply hposition.subset
    rw [hlines]
    exact List.mem_append_left _ (List.mem_map_of_mem ht)
  have htrimmed : IsTrimmed joined.toList := by
    apply hmakes.isTrimmed_joinedText rfl
    intro trimmed htrimmed
    obtain ⟨text, -, rfl⟩ := List.mem_map.1 htrimmed
    exact isTrimmed_trim text
  have hreads : Position.ofFeed joinedLimits (.ofText (joined.push '\n')) =
      ⟨[.line (encodeUtf8 (joined.push '\n'))], 0, {}⟩ := by
    have hr := reads_text hlineFeed hallow []
    rw [List.append_nil] at hr
    rw [Position.ofFeed, hr]
    rfl
  have hrow := hmakes.joinedText 1
  rw [hreads, readLogicalRow_text htrimmed hallow]
  simp only at hrow ⊢
  split
  · rename_i hi
    rw [if_pos hi] at hrow
    rw [show read.row = [] from hrow]
  · rename_i hi
    rw [if_neg hi] at hrow
    obtain ⟨fields, fieldStart, hsplit, hr⟩ := hrow
    rw [hsplit, show read.row = _ from hr]
    rfl

theorem readLogicalRow_joinedText_marks :
    let feed := Feed.ofText "x , \"\n  \n#y\"\"\n,z\" w,\"u\n\"\nnext\n"
    let position := Position.ofFeed {} feed
    position.rest <:+ feed.reads (Limits.readLength {}) ∧
      (readLogicalRow {} position).outcome = .ok true ∧
      (readLogicalRow {} position).row = ["x", ";#y\";,z w", "u;"] ∧
      (readLogicalRow {} (.ofFeed {} (.ofText ("x , \";#y\"\";,z\" w,\"u;\"".push '\n')))).row =
        (readLogicalRow {} position).row := by
  intro feed position
  have hrest : position.rest <:+ feed.reads (Limits.readLength {}) := List.suffix_refl _
  have hread : (readLogicalRow {} position).outcome = .ok true := by
    have hok : (readLogicalRow {} position).outcome.toOption = some true := by decide +kernel
    cases ho : (readLogicalRow {} position).outcome with
    | error failure => simp [ho, Except.toOption] at hok
    | ok more => simpa [ho, Except.toOption] using hok
  refine ⟨hrest, hread, by decide +kernel, ?_⟩
  obtain ⟨texts, hlines, hline, hjoined⟩ := readLogicalRow_joinedText {} {} feed position hrest hread
  have hlength : texts.length = 5 := by
    have hfive : (readLogicalRow {} position).position.line = position.line + 5 := by decide +kernel
    omega
  have htexts : texts = ["x , \"\n", "  \n", "#y\"\"\n", ",z\" w,\"u\n", "\"\n"] := by
    have hfirst := congrArg (List.take 5) hlines
    rw [List.take_left' (by simpa using hlength)] at hfirst
    refine (List.map_inj_right fun text other h => ?_).1 (hfirst.symm.trans ?_)
    · exact encodeUtf8_inj (LineRead.line.inj h)
    · decide +kernel
  have htrim : joinedText (texts.map trim) = "x , \";#y\"\";,z\" w,\"u;\"" := by
    rw [htexts]
    decide +kernel
  rw [htrim] at hjoined
  rw [hjoined (by simp only [Limits.Allow]; decide +kernel)]

end DefinitionFiles
