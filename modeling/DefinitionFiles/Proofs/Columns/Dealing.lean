import DefinitionFiles.Columns

namespace DefinitionFiles

namespace Record

theorem map_fst_pairUp (names : List String) (fields : Row) :
    (pairUp names fields).map Prod.fst = names := by
  induction names generalizing fields with
  | nil => rfl
  | cons name names ih => simp [pairUp, ih]

@[simp] theorem mem_ofFields {names : List String} {fields : Row} {name : String} :
    name ∈ ofFields names fields ↔ name ∈ names := by
  rw [ofFields, Std.ExtTreeMap.mem_ofList, map_fst_pairUp, List.contains_iff_mem]

end Record

theorem dropBlankEnd_append (isBlank : Record → Bool) (subs : List Record) :
    ∃ dropped, subs = dropBlankEnd isBlank subs ++ dropped ∧
      ∀ sub ∈ dropped, isBlank sub = true := by
  refine ⟨(subs.reverse.takeWhile isBlank).reverse, ?_, ?_⟩
  · rw [dropBlankEnd, ← List.reverse_append, List.takeWhile_append_dropWhile, List.reverse_reverse]
  · intro sub hs
    exact List.all_eq_true.1 List.all_takeWhile sub (List.mem_reverse.1 hs)

theorem getElem?_of_dropBlankEnd {isBlank : Record → Bool} {subs : List Record} {i : Nat}
    {sub : Record} (h : (dropBlankEnd isBlank subs)[i]? = some sub) : subs[i]? = some sub := by
  obtain ⟨dropped, hd, -⟩ := dropBlankEnd_append isBlank subs
  obtain ⟨hlt, -⟩ := List.getElem?_eq_some_iff.1 h
  rw [hd, List.getElem?_append_left hlt]
  exact h

theorem getD_dropBlankEnd (isBlank : Record → Bool) (hblank : ∀ sub, isBlank sub = true → sub = ∅)
    (subs : List Record) (i : Nat) : (dropBlankEnd isBlank subs).getD i ∅ = subs.getD i ∅ := by
  obtain ⟨dropped, he, hall⟩ := dropBlankEnd_append isBlank subs
  generalize dropBlankEnd isBlank subs = kept at he
  subst he
  by_cases hi : i < kept.length
  · simp [List.getElem?_append_left hi]
  · have hk : kept.length ≤ i := Nat.le_of_not_lt hi
    simp only [List.getD_eq_getElem?_getD, List.getElem?_append_right hk,
      List.getElem?_eq_none hk]
    cases hsub : dropped[i - kept.length]? with
    | none => rfl
    | some sub => exact (hblank sub (hall sub (List.mem_of_getElem? hsub))).symm

theorem Columns.getElem?_deal {groups : List (List String)} {fields : Row} {i : Nat} {sub : Record}
    (h : (deal groups fields)[i]? = some sub) :
    ∃ group, groups[i]? = some group ∧ ∀ name, name ∈ sub ↔ name ∈ group := by
  induction groups generalizing fields i with
  | nil => simp [deal] at h
  | cons group groups ih =>
      cases i with
      | zero =>
          simp only [deal, List.getElem?_cons_zero, Option.some.injEq] at h
          subst h
          exact ⟨group, rfl, fun name => Record.mem_ofFields⟩
      | succ i => exact ih h

end DefinitionFiles
