import Mathlib.Data.List.DropRight
import Mathlib.Data.List.Forall2

namespace List

variable {α β : Type}

theorem of_mem_splitOn [BEq α] [LawfulBEq α] {separator : α} {l piece : List α}
    (h : piece ∈ l.splitOn separator) : separator ∉ piece ∧ piece ⊆ l := by
  induction l generalizing piece with
  | nil =>
      obtain rfl : piece = [] := by simpa using h
      exact ⟨not_mem_nil, Subset.refl _⟩
  | cons a l ih =>
      obtain ⟨first, rest, hsplit⟩ := exists_cons_of_ne_nil (splitOn_ne_nil separator l)
      rw [splitOn_cons_eq_if_modifyHead, hsplit] at h
      have hfirst : separator ∉ first ∧ first ⊆ l := ih (by simp [hsplit])
      have hrest : ∀ piece ∈ rest, separator ∉ piece ∧ piece ⊆ l := fun piece hp =>
        ih (by simp [hsplit, hp])
      have hlonger : ∀ piece : List α, separator ∉ piece ∧ piece ⊆ l →
          separator ∉ piece ∧ piece ⊆ a :: l := fun piece hp =>
        ⟨hp.1, Subset.trans hp.2 (subset_cons_self a l)⟩
      split at h
      · simp only [mem_cons] at h
        rcases h with rfl | rfl | h
        · exact ⟨not_mem_nil, nil_subset _⟩
        · exact hlonger _ hfirst
        · exact hlonger _ (hrest piece h)
      · rename_i hne
        simp only [modifyHead_cons, mem_cons] at h
        rcases h with rfl | h
        · refine ⟨?_, cons_subset_cons a hfirst.2⟩
          rw [mem_cons, not_or]
          exact ⟨fun he => hne (by simp [he]), hfirst.1⟩
        · exact hlonger _ (hrest piece h)

theorem forall₂_dropWhile {R : α → β → Prop} {p : α → Bool} {q : β → Bool}
    (hpq : ∀ a b, R a b → p a = q b) {l : List α} {m : List β} (h : Forall₂ R l m) :
    Forall₂ R (l.dropWhile p) (m.dropWhile q) := by
  induction h with
  | nil => exact .nil
  | cons hr hrest ih =>
      rw [dropWhile_cons, dropWhile_cons, hpq _ _ hr]
      split
      · exact ih
      · exact .cons hr hrest

/-- What is kept of a list ends with the last of its elements that do not pass the test. -/
theorem length_rdropWhile_spec (p : α → Bool) (l : List α) :
    match (l.rdropWhile p).length with
    | 0 => ∀ i : Nat, ¬∃ a, l[i]? = some a ∧ p a = false
    | i + 1 => (∃ a, l[i]? = some a ∧ p a = false) ∧
        ∀ j : Nat, i < j → ¬∃ a, l[j]? = some a ∧ p a = false := by
  have hsplit : l.rdropWhile p ++ l.rtakeWhile p = l := rdropWhile_append_rtakeWhile
  have hdropped : ∀ j : Nat, (l.rdropWhile p).length ≤ j → ¬∃ a, l[j]? = some a ∧ p a = false := by
    rintro j hj ⟨a, ha, hp⟩
    rw [← hsplit, getElem?_append_right hj] at ha
    have hpass := mem_rtakeWhile_imp (mem_of_getElem? ha)
    simp [hp] at hpass
  split
  · rename_i hnone
    exact fun i => hdropped i (by omega)
  · rename_i i hkept
    have hne : l.rdropWhile p ≠ [] := ne_nil_of_length_eq_add_one hkept
    have hi : i < (l.rdropWhile p).length := by omega
    have hlast : l[i]? = (l.rdropWhile p).getLast? := by
      rw [← congrArg (·[i]?) hsplit, getElem?_append_left hi, getLast?_eq_getElem?, hkept]
      rfl
    rw [getLast?_eq_some_getLast hne] at hlast
    exact ⟨⟨_, hlast, Bool.eq_false_iff.2 (rdropWhile_last_not p l hne)⟩,
      fun j hj => hdropped j (by omega)⟩

theorem forall_getLast?_cons {p : α → Prop} {a : α} {l : List α} :
    (∀ last ∈ (a :: l).getLast?, p last) ↔ (l = [] → p a) ∧ ∀ last ∈ l.getLast?, p last := by
  cases l <;> simp [getLast?_cons_cons]

end List
