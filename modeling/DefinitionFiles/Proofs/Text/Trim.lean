import DefinitionFiles.Text.Blank
import Mathlib.Data.List.TakeWhile

namespace DefinitionFiles.Text

/-- Neither the first nor the last character is blank. -/
def IsTrimmed (text : List Char) : Prop :=
  (∀ c ∈ text.head?, isBlank c = false) ∧ ∀ c ∈ text.getLast?, isBlank c = false

theorem head?_trimStart (text : List Char) : ∀ c ∈ (trimStart text).head?, isBlank c = false := by
  intro c hc
  have h := List.head?_dropWhile_not isBlank text
  rw [show (text.dropWhile isBlank).head? = some c from hc] at h
  simpa using h

theorem trimStart_of_head? {text : List Char} (h : ∀ c ∈ text.head?, isBlank c = false) :
    trimStart text = text := by
  cases text with
  | nil => rfl
  | cons c rest => exact List.dropWhile_cons_of_neg (by simp [h c rfl])

theorem reverse_trimEnd (text : List Char) : (trimEnd text).reverse = trimStart text.reverse :=
  List.reverse_reverse _

theorem getLast?_trimEnd (text : List Char) : ∀ c ∈ (trimEnd text).getLast?, isBlank c = false := by
  intro c hc
  rw [← List.head?_reverse, reverse_trimEnd] at hc
  exact head?_trimStart _ c hc

theorem trimEnd_of_getLast? {text : List Char} (h : ∀ c ∈ text.getLast?, isBlank c = false) :
    trimEnd text = text := by
  rw [← List.reverse_inj, reverse_trimEnd, trimStart_of_head? (by simpa using h)]

theorem trimEnd_prefix (text : List Char) : trimEnd text <+: text := by
  rw [← List.reverse_suffix, reverse_trimEnd]
  exact List.dropWhile_suffix isBlank

theorem isTrimmed_trimEnd_trimStart (text : List Char) : IsTrimmed (trimEnd (trimStart text)) := by
  refine ⟨?_, getLast?_trimEnd _⟩
  intro c hc
  obtain ⟨dropped, hd⟩ := trimEnd_prefix (trimStart text)
  apply head?_trimStart text c
  rw [← hd, List.head?_append, hc]
  rfl

theorem IsTrimmed.trimEnd_trimStart {text : List Char} (h : IsTrimmed text) :
    trimEnd (trimStart text) = text := by
  rw [trimStart_of_head? h.1, trimEnd_of_getLast? h.2]

theorem toList_trim (text : String) : (trim text).toList = trimEnd (trimStart text.toList) :=
  String.toList_ofList

theorem mem_trim {text : String} {c : Char} (h : c ∈ (trim text).toList) : c ∈ text.toList := by
  rw [toList_trim] at h
  have hend := trimEnd_prefix (trimStart text.toList)
  exact (List.dropWhile_suffix isBlank).subset (hend.subset h)

theorem isTrimmed_trim (text : String) : IsTrimmed (trim text).toList := by
  rw [toList_trim]
  exact isTrimmed_trimEnd_trimStart text.toList

theorem trim_eq_self_iff {text : String} : trim text = text ↔ IsTrimmed text.toList := by
  constructor
  · intro h
    rw [← h]
    exact isTrimmed_trim text
  · intro h
    rw [← String.toList_inj, toList_trim, h.trimEnd_trimStart]

theorem trimEnd_append_blank (text : List Char) {c : Char} (hc : isBlank c = true) :
    trimEnd (text ++ [c]) = trimEnd text := by
  simp only [trimEnd, List.reverse_append, List.reverse_singleton, List.singleton_append,
    List.dropWhile_cons_of_pos hc]

theorem trim_push_blank (text : String) {c : Char} (hc : isBlank c = true) :
    trim (text.push c) = trim text := by
  rw [← String.toList_inj, toList_trim, toList_trim, String.toList_push]
  by_cases h : trimStart text.toList = []
  · have he : trimStart (text.toList ++ [c]) = [] := by
      have hd : text.toList.dropWhile isBlank = [] := h
      simp [trimStart, List.dropWhile_append, hd, hc]
    rw [h, he]
  · have he : trimStart (text.toList ++ [c]) = trimStart text.toList ++ [c] := by
      have hd : ¬text.toList.dropWhile isBlank = [] := h
      simp [trimStart, List.dropWhile_append, hd]
    rw [he, trimEnd_append_blank _ hc]

theorem trim_blank_append {blanks : String} (h : ∀ c ∈ blanks.toList, isBlank c = true)
    (text : String) : trim (blanks ++ text) = trim text := by
  rw [← String.toList_inj, toList_trim, toList_trim, String.toList_append, trimStart,
    List.dropWhile_append_of_pos h]
  rfl

theorem IsTrimmed.append_cons {text more : List Char} {c : Char} (htext : IsTrimmed text)
    (hc : isBlank c = false) (hmore : IsTrimmed more) : IsTrimmed (text ++ c :: more) := by
  constructor
  · intro d hd
    cases text with
    | nil => simp_all
    | cons first rest => exact htext.1 d (by simpa using hd)
  · intro d hd
    rcases List.eq_nil_or_concat more with rfl | ⟨before, last, rfl⟩
    · simp_all
    · apply hmore.2 d
      simpa [List.getLast?_append, List.getLast?_cons] using hd

theorem mem_trimStart {text : List Char} {c : Char} (h : c ∈ trimStart text) : c ∈ text :=
  (List.dropWhile_suffix isBlank).subset h

theorem mem_trimEnd {text : List Char} {c : Char} (h : c ∈ trimEnd text) : c ∈ text := by
  have hprefix := trimEnd_prefix text
  exact hprefix.subset h

theorem trimStart_append_cons {c : Char} (hc : isBlank c = false) (text more : List Char) :
    trimStart (text ++ c :: more) = trimStart text ++ c :: more := by
  rw [trimStart, trimStart, List.dropWhile_append, List.dropWhile_cons_of_neg (by simp [hc])]
  cases hd : text.dropWhile isBlank <;> simp

theorem trimEnd_append_cons {c : Char} (hc : isBlank c = false) (text more : List Char) :
    trimEnd (text ++ c :: more) = text ++ c :: trimEnd more := by
  rw [← List.reverse_inj, reverse_trimEnd, List.reverse_append, List.reverse_cons,
    List.append_assoc, List.singleton_append, trimStart_append_cons hc, List.reverse_append,
    List.reverse_cons, reverse_trimEnd]
  simp

theorem IsTrimmed.append {text more : List Char} (htext : IsTrimmed text)
    (hmore : IsTrimmed more) : IsTrimmed (text ++ more) := by
  constructor
  · intro c hc
    cases text with
    | nil => exact hmore.1 c hc
    | cons first rest => exact htext.1 c hc
  · intro c hc
    rw [List.getLast?_append] at hc
    rcases Option.or_eq_some_iff.1 hc with hc | ⟨-, hc⟩
    · exact hmore.2 c hc
    · exact htext.2 c hc

theorem trim_trimStart_append (start rest : List Char) :
    trim (String.ofList (trimStart start ++ rest)) = trim (String.ofList (start ++ rest)) := by
  have hblanks : ∀ c ∈ (String.ofList (start.takeWhile isBlank)).toList, isBlank c = true := by
    rw [String.toList_ofList]
    exact fun c hc => List.mem_takeWhile_imp hc
  rw [← trim_blank_append hblanks, ← String.ofList_append, ← List.append_assoc, trimStart,
    List.takeWhile_append_dropWhile]

theorem trim_append_blanks {blanks : List Char} (h : ∀ c ∈ blanks, isBlank c = true)
    (text : String) : trim (text ++ String.ofList blanks) = trim text := by
  induction blanks generalizing text with
  | nil => simp
  | cons c blanks ih =>
      obtain ⟨hc, hblanks⟩ := List.forall_mem_cons.1 h
      have hpush : text ++ String.ofList (c :: blanks) = text.push c ++ String.ofList blanks := by
        apply String.ext
        simp
      rw [hpush, ih hblanks, trim_push_blank text hc]

theorem trim_append_trimEnd (start last : List Char) :
    trim (String.ofList (start ++ trimEnd last)) = trim (String.ofList (start ++ last)) := by
  have hblanks : ∀ c ∈ (last.reverse.takeWhile isBlank).reverse, isBlank c = true :=
    fun c hc => List.mem_takeWhile_imp (List.mem_reverse.1 hc)
  rw [← trim_append_blanks hblanks, ← String.ofList_append, List.append_assoc, trimEnd,
    ← List.reverse_append, List.takeWhile_append_dropWhile, List.reverse_reverse]

end DefinitionFiles.Text
