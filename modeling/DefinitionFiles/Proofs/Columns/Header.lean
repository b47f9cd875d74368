import DefinitionFiles.Columns
import DefinitionFiles.Proofs.Text.Trim

namespace DefinitionFiles

open Text

theorem splitMark_of_unmarked {field : String} (h : (splitMark field).1 = false) :
    (splitMark field).2 = field := by
  simp only [splitMark] at h ⊢
  split
  · rfl
  · rename_i c rest hf
    rw [hf] at h
    by_cases hc : c = defaultMark
    · simp [hc] at h
    · simp [hc]

@[simp] theorem splitMark_defaultMark (name : String) :
    splitMark (String.ofList (defaultMark :: name.toList)) = (true, name) := by
  simp [splitMark]

theorem trim_defaultMark {name : String} (h : trim name = name) :
    trim (String.ofList (defaultMark :: name.toList)) =
      String.ofList (defaultMark :: name.toList) := by
  have hempty : IsTrimmed [] := by simp [IsTrimmed]
  rw [trim_eq_self_iff] at h ⊢
  simpa using hempty.append_cons (by decide) h

namespace Columns

structure IsGroup (group : List String) : Prop where
  nodup : group.Nodup
  nonempty : "" ∉ group
  trimmed : ∀ name ∈ group, trim name = name
  unmarked : ∀ name ∈ group.tail, (splitMark name).1 = false

structure WellFormed (columns : Columns) : Prop where
  main_ne_nil : columns.main ≠ []
  main : IsGroup columns.main
  unmarked : ∀ name ∈ columns.main, (splitMark name).1 = false
  groups : ∀ group ∈ columns.groups, group ≠ [] ∧ IsGroup group

theorem checkName_eq_ok {group : List String} {position : Nat} {name : String} :
    checkName group position name = .ok () ↔ name ≠ "" ∧ name ∉ group := by
  simp only [checkName, String.isEmpty_iff]
  split
  · simp_all
  · split <;> simp_all

theorem isGroup_nil : IsGroup [] := ⟨by simp, by simp, by simp, by simp⟩

theorem isGroup_singleton {name : String} (hname : name ≠ "") (htrim : trim name = name) :
    IsGroup [name] :=
  ⟨by simp, by simpa using hname.symm, by simpa using htrim, by simp⟩

theorem IsGroup.concat {group : List String} (h : IsGroup group) {name : String} (hname : name ≠ "")
    (hnew : name ∉ group) (htrim : trim name = name) (hmark : (splitMark name).1 = false) :
    IsGroup (group ++ [name]) where
  nodup := by
    rw [List.nodup_append]
    refine ⟨h.nodup, by simp, fun other ho last hl => ?_⟩
    rw [List.mem_singleton.1 hl]
    exact fun he => hnew (he ▸ ho)
  nonempty := by simpa using ⟨h.nonempty, hname⟩
  trimmed := List.forall_mem_append.2 ⟨h.trimmed, by simpa using htrim⟩
  unmarked := by
    cases group with
    | nil => simp
    | cons first rest => exact List.forall_mem_append.2 ⟨h.unmarked, by simpa using hmark⟩

theorem groupsFrom_ok {closed : List (List String)} {group : List String} {position : Nat}
    {names : List String} {result : List (List String)} (hgroup : IsGroup group)
    (h : groupsFrom closed group position names = .ok result) :
    ∃ grown later, result = closed ++ (group ++ grown) :: later ∧ IsGroup (group ++ grown) ∧
      (∀ name ∈ grown, (splitMark name).1 = false) ∧
      ∀ group ∈ later, group ≠ [] ∧ IsGroup group := by
  -- names join the open group until one opens the next
  induction names generalizing closed group position with
  | nil => exact ⟨[], [], by simpa [groupsFrom] using h.symm, by simpa using hgroup, by simp, by simp⟩
  | cons raw rest ih =>
      simp only [groupsFrom] at h
      cases hopens : (splitMark (trim raw)).1 with
      | true =>
          simp only [hopens, if_true] at h
          split at h
          · cases h
          · cases hc : checkName [] position (trim (splitMark (trim raw)).2) with
            | error fault => simp [hc] at h
            | ok _ =>
                simp only [hc] at h
                have hname := (checkName_eq_ok.1 hc).1
                have htrim := trim_eq_self_iff.2 (isTrimmed_trim (splitMark (trim raw)).2)
                obtain ⟨grown, later, hresult, hgrown, -, hlater⟩ :=
                  ih (isGroup_singleton hname htrim) h
                refine ⟨[], _ :: later, by simpa using hresult, by simpa using hgroup, by simp, ?_⟩
                exact List.forall_mem_cons.2 ⟨⟨by simp, hgrown⟩, hlater⟩
      | false =>
          simp only [hopens, Bool.false_eq_true, if_false, splitMark_of_unmarked hopens] at h
          cases hc : checkName group position (trim raw) with
          | error fault => simp [hc] at h
          | ok _ =>
              simp only [hc] at h
              obtain ⟨hname, hnew⟩ := checkName_eq_ok.1 hc
              have htrim := trim_eq_self_iff.2 (isTrimmed_trim raw)
              obtain ⟨grown, later, hresult, hgrown, hmarks, hlater⟩ :=
                ih (hgroup.concat hname hnew htrim hopens) h
              refine ⟨trim raw :: grown, later, by simpa using hresult, by simpa using hgrown, ?_,
                hlater⟩
              exact List.forall_mem_cons.2 ⟨hopens, hmarks⟩

theorem wellFormed_of_ofHeader {header : List String} {columns : Columns}
    (h : ofHeader header = .ok columns) : columns.WellFormed := by
  simp only [ofHeader] at h
  split at h
  · cases h
  · cases h
  · cases h
  · rename_i main groups hne hgroups
    cases h
    obtain ⟨grown, later, hresult, hgrown, hmarks, hlater⟩ := groupsFrom_ok isGroup_nil hgroups
    obtain ⟨rfl, rfl⟩ := List.cons.inj hresult
    exact ⟨hne, hgrown, hmarks, hlater⟩

theorem groupsFrom_append (closed : List (List String)) (group : List String) {names : List String}
    (h : IsGroup (group ++ names)) (hmarks : ∀ name ∈ names, (splitMark name).1 = false)
    (position : Nat) (rest : List String) :
    groupsFrom closed group position (names ++ rest) =
      groupsFrom closed (group ++ names) (position + names.length) rest := by
  induction names generalizing group position with
  | nil => simp
  | cons name names ih =>
      have hmark := hmarks name List.mem_cons_self
      have hname : name ≠ "" := fun he => h.nonempty (by simp [he])
      have hnew : name ∉ group := fun hm =>
        (List.nodup_append.1 h.nodup).2.2 name hm name List.mem_cons_self rfl
      have hcheck : checkName group position name = .ok () := checkName_eq_ok.2 ⟨hname, hnew⟩
      have hi := ih (group ++ [name]) (by simpa using h)
        (fun other ho => hmarks other (List.mem_cons_of_mem name ho)) (position + 1)
      simp only [List.cons_append, groupsFrom, h.trimmed name (by simp), hmark,
        Bool.false_eq_true, if_false, splitMark_of_unmarked hmark, hcheck, hi]
      simp [Nat.add_assoc, Nat.add_comm 1]

theorem groupsFrom_markFirst (closed : List (List String)) (last : List String)
    {group : List String} (hne : group ≠ []) (h : IsGroup group) {position : Nat}
    (hposition : 1 < position) (rest : List String) :
    groupsFrom closed last position (markFirst group ++ rest) =
      groupsFrom (closed ++ [last]) group (position + group.length) rest := by
  obtain ⟨name, names, rfl⟩ := List.exists_cons_of_ne_nil hne
  have hname : name ≠ "" := fun he => h.nonempty (by simp [he])
  have hcheck : checkName [] position name = .ok () := checkName_eq_ok.2 ⟨hname, by simp⟩
  have htrim := h.trimmed name List.mem_cons_self
  have hmarked : trim (String.ofList (defaultMark :: name.toList)) =
      String.ofList (defaultMark :: name.toList) := trim_defaultMark htrim
  have hfirst : position ≠ 1 := by omega
  simp only [markFirst, List.cons_append, groupsFrom, hmarked, splitMark_defaultMark, if_true,
    if_neg hfirst, htrim, hcheck]
  rw [groupsFrom_append _ [name] h h.unmarked]
  simp [Nat.add_assoc, Nat.add_comm 1]

theorem groupsFrom_markFirsts (closed : List (List String)) (group : List String)
    {groups : List (List String)} (h : ∀ group ∈ groups, group ≠ [] ∧ IsGroup group)
    {position : Nat} (hposition : 1 < position) :
    groupsFrom closed group position (groups.flatMap markFirst) =
      .ok (closed ++ group :: groups) := by
  induction groups generalizing closed group position with
  | nil => rfl
  | cons next groups ih =>
      obtain ⟨hne, hnext⟩ := h next List.mem_cons_self
      rw [List.flatMap_cons, groupsFrom_markFirst closed group hne hnext hposition,
        ih _ _ (fun other ho => h other (List.mem_cons_of_mem next ho)) (by omega)]
      simp

/-- A header that is written from columns names these again. -/
theorem WellFormed.ofHeader_header {columns : Columns} (h : columns.WellFormed) :
    ofHeader columns.header = .ok columns := by
  have hlength : 0 < columns.main.length := List.length_pos_iff.2 h.main_ne_nil
  have hgroups : groupsFrom [] [] 1 columns.header = .ok (columns.main :: columns.groups) := by
    have hmain := groupsFrom_append [] [] h.main h.unmarked 1
    rw [header, hmain, groupsFrom_markFirsts _ _ h.groups (Nat.lt_add_of_pos_right hlength)]
    rfl
  obtain ⟨main, groups⟩ := columns
  obtain ⟨name, names, rfl⟩ := List.exists_cons_of_ne_nil h.main_ne_nil
  simp [ofHeader, hgroups]

theorem mem_header {columns : Columns} {field : String} (h : field ∈ columns.header) :
    ∃ name ∈ columns.names, field = name ∨
      field = String.ofList (defaultMark :: name.toList) := by
  rcases List.mem_append.1 h with hm | hm
  · exact ⟨field, List.mem_append_left _ hm, .inl rfl⟩
  · obtain ⟨group, hg, hf⟩ := List.mem_flatMap.1 hm
    have hmem : ∀ name ∈ group, name ∈ columns.names := fun name hn =>
      List.mem_append_right _ (List.mem_flatten.2 ⟨group, hg, hn⟩)
    cases group with
    | nil => cases hf
    | cons name names =>
        rcases List.mem_cons.1 hf with rfl | hf
        · exact ⟨name, hmem name List.mem_cons_self, .inr rfl⟩
        · exact ⟨field, hmem field (List.mem_cons_of_mem name hf), .inl rfl⟩

theorem WellFormed.trimmed {columns : Columns} (h : columns.WellFormed) :
    ∀ name ∈ columns.names, trim name = name := by
  intro name hn
  rcases List.mem_append.1 hn with hm | hm
  · exact h.main.trimmed name hm
  · obtain ⟨group, hg, hn⟩ := List.mem_flatten.1 hm
    exact (h.groups group hg).2.trimmed name hn

theorem WellFormed.trim_header {columns : Columns} (h : columns.WellFormed) :
    columns.header.map trim = columns.header := by
  refine (List.map_congr_left fun field hf => ?_).trans (List.map_id _)
  obtain ⟨name, hn, rfl | rfl⟩ := mem_header hf
  · exact h.trimmed field hn
  · exact trim_defaultMark (h.trimmed name hn)

theorem WellFormed.header_not_blank {columns : Columns} (h : columns.WellFormed) :
    ∃ field ∈ columns.header, field ≠ "" := by
  obtain ⟨name, names, hmain⟩ := List.exists_cons_of_ne_nil h.main_ne_nil
  exact ⟨name, by simp [header, hmain], fun he => h.main.nonempty (by simp [hmain, he])⟩

theorem lineFeed_not_mem_header {columns : Columns}
    (h : ∀ name ∈ columns.names, '\n' ∉ name.toList) :
    ∀ field ∈ columns.header, '\n' ∉ field.toList := by
  intro field hf
  obtain ⟨name, hn, rfl | rfl⟩ := mem_header hf
  · exact h field hn
  · simpa [defaultMark] using h name hn

end Columns

end DefinitionFiles
