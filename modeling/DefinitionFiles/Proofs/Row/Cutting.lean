import DefinitionFiles.Proofs.Feed.Lines
import DefinitionFiles.Proofs.Row.Splitting
import Mathlib

namespace DefinitionFiles

def separatorByte : UInt8 := 0x2C

def slices (bytes : List UInt8) (start : Nat) : List Nat → List (List UInt8)
  | [] => [bytes.drop start]
  | stop :: stops => (bytes.take stop).drop start :: slices bytes (stop + 1) stops

theorem slices_eq_modifyHead (byte : UInt8) (before piece rest : List UInt8) :
    slices (before ++ piece ++ rest) before.length
        (rest.idxsOf byte (before.length + piece.length)) =
      (rest.splitOn byte).modifyHead (piece ++ ·) := by
  induction rest generalizing before piece with
  | nil => simp [slices]
  | cons next rest ih =>
      rw [List.idxsOf_cons, List.splitOn_cons_eq_if_modifyHead]
      split
      · have hrest := ih (before ++ piece ++ [next]) []
        simp only [List.length_append, List.length_singleton, List.length_nil, Nat.add_zero,
          List.append_nil, List.append_assoc, List.singleton_append, List.nil_append] at hrest
        rw [slices, List.take_left' (by simp), List.drop_left, List.append_assoc, Nat.add_assoc,
          hrest, show (fun slice : List UInt8 => slice) = id from rfl, List.modifyHead_id]
        simp
      · have hrest := ih before (piece ++ [next])
        simp only [List.length_append, List.length_singleton, List.append_assoc,
          List.singleton_append, ← Nat.add_assoc] at hrest
        rw [List.append_assoc, hrest, List.modifyHead_modifyHead]
        congr 1

theorem slices_idxsOf (byte : UInt8) (bytes : List UInt8) :
    slices bytes 0 (bytes.idxsOf byte) = bytes.splitOn byte := by
  have h := slices_eq_modifyHead byte [] [] bytes
  obtain ⟨first, pieces, hsplit⟩ := List.exists_cons_of_ne_nil (List.splitOn_ne_nil byte bytes)
  simpa [hsplit] using h

namespace Text

theorem encodeUtf8_intercalate (pieces : List (List Char)) :
    encodeUtf8 (String.ofList ([fieldSeparator].intercalate pieces)) =
      [separatorByte].intercalate (pieces.map fun piece => encodeUtf8 (String.ofList piece)) := by
  induction pieces with
  | nil => rfl
  | cons piece pieces ih =>
      cases pieces with
      | nil => simp
      | cons next pieces =>
          rw [List.map_cons] at ih
          rw [List.intercalate_cons_cons, List.map_cons, List.map_cons, List.intercalate_cons_cons,
            ← ih, String.ofList_append, String.ofList_append, encodeUtf8_append, encodeUtf8_append]
          rfl

/-- In UTF-8 the separator is one byte that no other character has, so slices between its places
hold whole characters. -/
theorem splitOn_encodeUtf8 (line : String) :
    (encodeUtf8 line).splitOn separatorByte =
      (line.toList.splitOn fieldSeparator).map fun piece => encodeUtf8 (String.ofList piece) := by
  let pieces := line.toList.splitOn fieldSeparator
  have hline : String.ofList ([fieldSeparator].intercalate pieces) = line := by
    rw [List.intercalate_splitOn, String.ofList_toList]
  conv_lhs => rw [← hline, encodeUtf8_intercalate]
  refine List.splitOn_intercalate separatorByte ?_ (by simp [pieces])
  intro bytes hbytes
  obtain ⟨piece, hpiece, rfl⟩ := List.mem_map.1 hbytes
  refine byte_not_mem_encodeUtf8 (d := fieldSeparator) (by decide) ?_
  rw [String.toList_ofList]
  exact (List.of_mem_splitOn hpiece).1

end Text

namespace Split

/-- Splits a line in UTF-8 without quote marks: what lies between the places of the separator's
byte is sliced out, and has to be text. -/
def cutBytes (line : List UInt8) (split : Split) : Except Text.Utf8Fault Split :=
  (slices line 0 (line.idxsOf separatorByte)).foldlM
    (fun split slice => do
      let piece ← Text.decodeUtf8 slice
      pure { split with text := split.text ++ piece }.finishField) split

theorem cutBytes_encodeUtf8 (line : String) (split : Split) :
    cutBytes (Text.encodeUtf8 line) split = .ok (cut line.toList split) := by
  rw [cutBytes, slices_idxsOf, Text.splitOn_encodeUtf8, List.foldlM_map]
  simp only [Text.decodeUtf8_encodeUtf8]
  exact List.foldlM_pure

theorem cut_plain {piece : List Char} (h : fieldSeparator ∉ piece) (rest : List Char)
    (fields : Array String) (text : String) (place : SplitPlace) :
    cut (piece ++ rest) ⟨fields, text, place⟩ =
      cut rest ⟨fields, text ++ String.ofList piece, place⟩ := by
  induction piece generalizing text with
  | nil => simp
  | cons c piece ih =>
      have hc : c ≠ fieldSeparator := fun he => h (by simp [he])
      have hpiece : fieldSeparator ∉ piece := fun hm => h (List.mem_cons_of_mem c hm)
      rw [List.cons_append, cut_cons hc, push, ih hpiece, push_append_ofList]

theorem cut_joined (field : String) (row : Row)
    (hfields : ∀ other ∈ field :: row, Text.trim other = other ∧ fieldSeparator ∉ other.toList)
    (fields : Array String) (place : SplitPlace) :
    cut ([fieldSeparator].intercalate ((field :: row).map String.toList)) ⟨fields, "", place⟩ =
      ⟨fields ++ (field :: row).toArray, "", place⟩ := by
  induction row generalizing field fields with
  | nil =>
      obtain ⟨htrim, hplain⟩ := List.forall_mem_singleton.1 hfields
      have hcut := cut_plain hplain [] fields "" place
      rw [List.append_nil, cut_nil] at hcut
      simpa [finishField, htrim] using hcut
  | cons next row ih =>
      obtain ⟨⟨htrim, hplain⟩, hrow⟩ := List.forall_mem_cons.1 hfields
      rw [List.map_cons, List.map_cons, List.intercalate_cons_cons, List.append_assoc,
        cut_plain hplain, List.singleton_append, cut_separator, finishField]
      simp only [String.empty_append, String.ofList_toList, htrim]
      rw [← List.map_cons, ih next hrow]
      simp

theorem quoteMark_not_mem_joined {row : Row} (h : ∀ field ∈ row, quoteMark ∉ field.toList) :
    quoteMark ∉ [fieldSeparator].intercalate (row.map String.toList) := by
  have hseparator : quoteMark ≠ fieldSeparator := by decide
  induction row with
  | nil => exact List.not_mem_nil
  | cons field row ih =>
      obtain ⟨hfield, hrow⟩ := List.forall_mem_cons.1 h
      cases row with
      | nil => simpa using hfield
      | cons next row =>
          rw [List.map_cons] at ih
          rw [List.map_cons, List.map_cons, List.intercalate_cons_cons]
          simp [hfield, hseparator, ih hrow]

/-- A line without quote marks has the same fields whether it is sliced at the bytes of its
separators or scanned character by character, whatever came before it. Plain fields that were
joined come back both ways. -/
theorem cut_agrees_scan (lineNo : Nat) :
    (∀ (line : String) (fields : Array String) (text : String) (fieldStart : Bool),
      quoteMark ∉ line.toList →
        let split : Split := ⟨fields, text, .outside fieldStart⟩
        ∃ found fieldStart',
          cutBytes (Text.encodeUtf8 line) split = .ok ⟨found, "", .outside fieldStart⟩ ∧
          Split.line lineNo line.toList split = ⟨found, "", .outside fieldStart⟩ ∧
          scan lineNo line.toList split = ⟨found, "", .outside fieldStart'⟩) ∧
      ∀ row : Row, row ≠ [] →
        (∀ field ∈ row,
          Text.trim field = field ∧ fieldSeparator ∉ field.toList ∧ quoteMark ∉ field.toList) →
        let line := [fieldSeparator].intercalate (row.map String.toList)
        ∃ fieldStart',
          cutBytes (Text.encodeUtf8 (String.ofList line)) {} = .ok ⟨row.toArray, "", .outside true⟩ ∧
          Split.line lineNo line {} = ⟨row.toArray, "", .outside true⟩ ∧
          scan lineNo line {} = ⟨row.toArray, "", .outside fieldStart'⟩ := by
  have hagree (line : String) (fields : Array String) (text : String) (fieldStart : Bool)
      (hquotes : quoteMark ∉ line.toList) :
      let split : Split := ⟨fields, text, .outside fieldStart⟩
      ∃ found fieldStart', cut line.toList split = ⟨found, "", .outside fieldStart⟩ ∧
        cutBytes (Text.encodeUtf8 line) split = .ok ⟨found, "", .outside fieldStart⟩ ∧
        Split.line lineNo line.toList split = ⟨found, "", .outside fieldStart⟩ ∧
        scan lineNo line.toList split = ⟨found, "", .outside fieldStart'⟩ := by
    intro split
    obtain ⟨found, fieldStart', hcut, hscan⟩ :=
      cut_eq_scan lineNo line.toList hquotes fields text fieldStart fieldStart
    have hline : Split.line lineNo line.toList split = cut line.toList split := by
      simp [Split.line, split, hquotes]
    exact ⟨found, fieldStart', hcut, by rw [cutBytes_encodeUtf8, hcut], hline.trans hcut, hscan⟩
  refine ⟨fun line fields text fieldStart hquotes => ?_, fun row hrow hfields => ?_⟩
  · obtain ⟨found, fieldStart', -, hways⟩ := hagree line fields text fieldStart hquotes
    exact ⟨found, fieldStart', hways⟩
  · obtain ⟨field, row, rfl⟩ := List.exists_cons_of_ne_nil hrow
    let line := [fieldSeparator].intercalate ((field :: row).map String.toList)
    have hcut : cut line {} = ⟨(field :: row).toArray, "", .outside true⟩ := by
      have hplain := fun other ho => And.intro (hfields other ho).1 (hfields other ho).2.1
      exact (cut_joined field row hplain #[] (.outside true)).trans (by rw [Array.empty_append])
    have hquotes : quoteMark ∉ line := quoteMark_not_mem_joined fun other ho => (hfields other ho).2.2
    obtain ⟨found, fieldStart', hfound, hways⟩ := hagree (String.ofList line) #[] "" true
      (by rwa [String.toList_ofList])
    rw [String.toList_ofList] at hfound hways
    obtain rfl : found = (field :: row).toArray := congrArg Split.fields (hfound.symm.trans hcut)
    exact ⟨fieldStart', hways⟩

theorem cut_agrees_scan_letters :
    let line := "é,, ñ ,"
    let split : Split := ⟨#["r"], " a", .outside false⟩
    let row : Row := ["né", "", "b c"]
    quoteMark ∉ line.toList ∧
      cutBytes (Text.encodeUtf8 line) split =
        .ok ⟨#["r", "aé", "", "ñ", ""], "", .outside false⟩ ∧
      (scan 1 line.toList split).row = ["r", "aé", "", "ñ", ""] ∧
      (∀ field ∈ row,
        Text.trim field = field ∧ fieldSeparator ∉ field.toList ∧ quoteMark ∉ field.toList) ∧
      (scan 1 "né,,b c".toList {}).row = row ∧ Split.line 1 "né,,b c".toList {} =
        ⟨row.toArray, "", .outside true⟩ := by
  intro line split row
  have hquotes : quoteMark ∉ line.toList := by decide
  have hfields : ∀ field ∈ row,
      Text.trim field = field ∧ fieldSeparator ∉ field.toList ∧ quoteMark ∉ field.toList := by
    decide +kernel
  obtain ⟨hline, hrow⟩ := cut_agrees_scan 1
  obtain ⟨found, _, hbytes, -, hscan⟩ := hline line #["r"] " a" false hquotes
  obtain ⟨_, -, hjoined, hscanned⟩ := hrow row (by decide) hfields
  have hfields' : (scan 1 line.toList split).fields = #["r", "aé", "", "ñ", ""] := by
    decide +kernel
  obtain rfl : found = #["r", "aé", "", "ñ", ""] := (congrArg Split.fields hscan).symm.trans hfields'
  have htext : [fieldSeparator].intercalate (row.map String.toList) = "né,,b c".toList := by
    decide +kernel
  rw [htext] at hjoined hscanned
  exact ⟨hquotes, hbytes, congrArg Split.row hscan, hfields, congrArg Split.row hscanned, hjoined⟩

end Split

end DefinitionFiles
