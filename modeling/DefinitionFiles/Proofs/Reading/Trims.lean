import DefinitionFiles.Proofs.Feed.Whole
import DefinitionFiles.Proofs.Reading.Script
import DefinitionFiles.Proofs.Row.RoundTrip
import DefinitionFiles.Proofs.Row.Steps

namespace DefinitionFiles

open Text

/-- Sources whose lines show the same are read the same, step by step. -/
theorem rowReads_congr {limits : Limits} {position other : Position}
    (hrest : other.rest.map (LineRead.shown limits) = position.rest.map (LineRead.shown limits))
    (hline : other.line = position.line) (hfingerprint : other.fingerprint = position.fingerprint) :
    (rowReads limits other).map RowRead.told = (rowReads limits position).map RowRead.told := by
  induction position using readLogicalRow_induction limits generalizing other with
  | step position ih =>
      have hread := readRowFrom_congr limits {} 0 position.line position.fingerprint hrest
      simp only at hread
      rw [← hline, ← hfingerprint, ← readLogicalRow] at hread
      rw [hline, hfingerprint, ← readLogicalRow] at hread
      obtain ⟨houtcome, hrow, hline', hfingerprint', hrest'⟩ := hread
      have htold : (readLogicalRow limits other).told = (readLogicalRow limits position).told := by
        simp only [RowRead.told, RowRead.shown, houtcome, hrow, hline', hfingerprint']
      have hend : (readLogicalRow limits other).isEnd = (readLogicalRow limits position).isEnd := by
        simp only [RowRead.isEnd, houtcome]
      cases he : (readLogicalRow limits position).isEnd with
      | true =>
          rw [rowReads_of_isEnd he, rowReads_of_isEnd (hend.trans he), List.map_singleton,
            List.map_singleton, htold]
      | false =>
          rw [rowReads_of_not_isEnd he, rowReads_of_not_isEnd (hend.trans he), List.map_cons,
            List.map_cons, htold, ih he hrest' hline' hfingerprint']

theorem exists_wholeLines_encodeUtf8 (text : String) :
    ∃ texts : List String, wholeLines (encodeUtf8 text) = texts.map encodeUtf8 := by
  generalize hn : text.toList.length = n
  induction n using Nat.strongRecOn generalizing text with
  | ind n ih =>
      by_cases hm : '\n' ∈ text.toList
      · obtain ⟨before, after, hsplit, hb⟩ := List.eq_append_cons_of_mem hm
        have htext : text = (String.ofList before).push '\n' ++ String.ofList after := by
          apply String.ext
          simp [hsplit]
        have hline : lineFeed ∉ encodeUtf8 (String.ofList before) :=
          lineFeed_not_mem_encodeUtf8 (by simpa using hb)
        obtain ⟨texts, hlines⟩ := ih after.length
          (by rw [← hn, hsplit, List.length_append, List.length_cons]; omega)
          (String.ofList after) (by simp)
        refine ⟨(String.ofList before).push '\n' :: texts, ?_⟩
        rw [htext, encodeUtf8_append, encodeUtf8_push_lineFeed, List.append_assoc,
          List.singleton_append, wholeLines_lineFeed hline, hlines, List.map_cons,
          encodeUtf8_push_lineFeed]
      · by_cases he : encodeUtf8 text = []
        · exact ⟨[], by rw [he]; rfl⟩
        · exact ⟨[text], wholeLines_of_not_mem (lineFeed_not_mem_encodeUtf8 hm) he⟩

/-- The text of a line without the blanks around it, if the line is one of a text. -/
def trimmed? (line : List UInt8) : Option String := (decodeUtf8 line).toOption.map trim

theorem shown_reads_of_text {limits : Limits} {feed : Feed} {text : String}
    (hfeed : ∀ reason, .failure reason ∉ feed) (hcontent : feed.content = encodeUtf8 text)
    (hlines : ∀ line ∈ wholeLines feed.content, limits.Admits line) :
    (feed.reads limits.readLength).map (LineRead.shown limits) =
      ((wholeLines feed.content).map trimmed?).map fun trimmed => .text (trimmed.getD "") := by
  rw [Feed.reads_of_admits hfeed hlines, List.map_map, List.map_map]
  obtain ⟨texts, htexts⟩ := exists_wholeLines_encodeUtf8 text
  apply List.map_congr_left
  intro line hl
  have hfits := (hlines line hl).1
  rw [hcontent, htexts] at hl
  obtain ⟨decoded, -, rfl⟩ := List.mem_map.1 hl
  simp [LineRead.shown, Nat.not_lt.2 hfits, decodeUtf8_encodeUtf8, trimmed?, Except.toOption]

/-- The blanks around its lines, their terminators included, have no bearing on what is read of
a text: neither on the rows nor on the failures, nor on where they are found, nor on the
fingerprint. -/
theorem rowReads_trimmed (limits : Limits) {feed other : Feed} {text otherText : String}
    (hfeed : ∀ reason, .failure reason ∉ feed) (hother : ∀ reason, .failure reason ∉ other)
    (hcontent : feed.content = encodeUtf8 text) (hothers : other.content = encodeUtf8 otherText)
    (hlines : ∀ line ∈ wholeLines feed.content, limits.Admits line)
    (hotherLines : ∀ line ∈ wholeLines other.content, limits.Admits line)
    (htrimmed : (wholeLines other.content).map trimmed? = (wholeLines feed.content).map trimmed?) :
    (rowReads limits (.ofFeed limits other)).map RowRead.told =
      (rowReads limits (.ofFeed limits feed)).map RowRead.told := by
  refine rowReads_congr ?_ rfl rfl
  rw [Position.ofFeed, Position.ofFeed, shown_reads_of_text hfeed hcontent hlines,
    shown_reads_of_text hother hothers hotherLines, htrimmed]

theorem rowReads_trimmed_quoted :
    let limits : Limits := ⟨8, 2⟩
    let text := "# c\n\"a\nb\" , x\n\"q\r\n"
    let other := "  # c\t\r\n \"a \r\n\tb\" , x\n\"q"
    (∀ line ∈ wholeLines (encodeUtf8 text), limits.Admits line) ∧
      (∀ line ∈ wholeLines (encodeUtf8 other), limits.Admits line) ∧
      (rowReads limits (.ofFeed limits (.ofText other))).map RowRead.told =
        (rowReads limits (.ofFeed limits (.ofText text))).map RowRead.told ∧
      (rowReads limits (.ofFeed limits (.ofText text))).map (fun read => read.row) =
        [[], ["a;b", "x"], [], []] := by
  intro limits text other
  have hfeed : ∀ text reason, .failure reason ∉ Feed.ofText text := by
    simp [Feed.ofText, Feed.ofBytes]
  have hlines : ∀ line ∈ wholeLines (encodeUtf8 text), limits.Admits line := by
    simp only [Limits.Admits]
    decide +kernel
  have hotherLines : ∀ line ∈ wholeLines (encodeUtf8 other), limits.Admits line := by
    simp only [Limits.Admits]
    decide +kernel
  have hcontent : (Feed.ofText text).content = encodeUtf8 text := by decide +kernel
  have hothers : (Feed.ofText other).content = encodeUtf8 other := by decide +kernel
  exact ⟨hlines, hotherLines, rowReads_trimmed limits (hfeed text) (hfeed other) hcontent hothers
    hlines hotherLines (by decide +kernel), by decide +kernel⟩

end DefinitionFiles
