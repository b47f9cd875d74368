import DefinitionFiles.Proofs.Columns.Header
import Mathlib

namespace DefinitionFiles.Columns

open Text

/-- Whether the name at some place of a header opens a group, which the first one cannot. -/
def opensAt (header : List String) (k : Nat) : Bool :=
  k != 0 && header[k]?.any fun raw => (splitMark (trim raw)).1

def nameAt? (header : List String) (k : Nat) : Option String :=
  header[k]?.map fun raw => if opensAt header k then trim (splitMark (trim raw)).2 else trim raw

def openers (header : List String) : List Nat :=
  (List.range header.length).filter (opensAt header)

/-- Two columns of one run: no group is opened after the first of them, up to the second. -/
structure SameRun (header : List String) (j k : Nat) : Prop where
  lt : j < k
  lt_length : k < header.length
  unopened : ∀ i, j < i → i ≤ k → opensAt header i = false

inductive FaultAt (header : List String) : Nat → HeaderFault → Prop
  | marked (raw : String) (h : header[0]? = some raw) (hmark : (splitMark (trim raw)).1 = true) :
      FaultAt header 0 (.firstOpensGroup (trim raw))
  | unnamed (k : Nat) (h : nameAt? header k = some "") : FaultAt header k (.emptyName (k + 1))
  | repeated (j k : Nat) (name : String) (hrun : SameRun header j k)
      (hj : nameAt? header j = some name) (hk : nameAt? header k = some name) :
      FaultAt header k (.duplicateName name)

def starts : Nat → List (List String) → List Nat
  | _, [] => []
  | start, group :: groups => start :: starts (start + group.length) groups

def Holds (start : Nat) (groups : List (List String)) (g k : Nat) : Prop :=
  ∃ group first, groups[g]? = some group ∧ (starts start groups)[g]? = some first ∧
    first ≤ k ∧ k < first + group.length

theorem starts_append (start : Nat) (groups more : List (List String)) :
    starts start (groups ++ more) =
      starts start groups ++ starts (start + groups.flatten.length) more := by
  induction groups generalizing start with
  | nil => rfl
  | cons group groups ih => simp [starts, ih, Nat.add_assoc]

theorem length_starts (start : Nat) (groups : List (List String)) :
    (starts start groups).length = groups.length := by
  induction groups generalizing start with
  | nil => rfl
  | cons group groups ih => simp [starts, ih]

theorem holds_zero {start k : Nat} {group : List String} {groups : List (List String)} :
    Holds start (group :: groups) 0 k ↔ start ≤ k ∧ k < start + group.length := by
  simp [Holds, starts]

theorem holds_succ {start k g : Nat} {group : List String} {groups : List (List String)} :
    Holds start (group :: groups) (g + 1) k ↔ Holds (start + group.length) groups g k := by
  simp [Holds, starts]

theorem Holds.le {start g k : Nat} {groups : List (List String)} (h : Holds start groups g k) :
    start ≤ k := by
  induction groups generalizing start g with
  | nil => obtain ⟨_, _, hg, -⟩ := h; simp at hg
  | cons group groups ih =>
      cases g with
      | zero => exact (holds_zero.1 h).1
      | succ g => exact Nat.le_trans (Nat.le_add_right _ _) (ih (holds_succ.1 h))

theorem existsUnique_holds {start k : Nat} {groups : List (List String)} (hstart : start ≤ k)
    (hk : k < start + groups.flatten.length) : ∃! g, Holds start groups g k := by
  induction groups generalizing start with
  | nil => simp at hk; omega
  | cons group groups ih =>
      rw [List.flatten_cons, List.length_append, ← Nat.add_assoc] at hk
      by_cases hfirst : k < start + group.length
      · refine ⟨0, holds_zero.2 ⟨hstart, hfirst⟩, fun g hg => ?_⟩
        cases g with
        | zero => rfl
        | succ g =>
            have hle := (holds_succ.1 hg).le
            omega
      · obtain ⟨g, hg, hunique⟩ := ih (Nat.not_lt.1 hfirst) hk
        refine ⟨g + 1, holds_succ.2 hg, fun other hother => ?_⟩
        cases other with
        | zero => exact absurd (holds_zero.1 hother).2 hfirst
        | succ other => rw [hunique other (holds_succ.1 hother)]

section Prefix

variable {before rest : List String} {k : Nat}

theorem opensAt_append (h : k < before.length) :
    opensAt (before ++ rest) k = opensAt before k := by
  rw [opensAt, opensAt, List.getElem?_append_left h]

theorem nameAt?_append (h : k < before.length) :
    nameAt? (before ++ rest) k = nameAt? before k := by
  rw [nameAt?, nameAt?, List.getElem?_append_left h, opensAt_append h]

theorem lt_length_of_nameAt? {header : List String} {name : String}
    (h : nameAt? header k = some name) : k < header.length := by
  obtain ⟨raw, hraw, -⟩ := Option.map_eq_some_iff.1 h
  exact (List.getElem?_eq_some_iff.1 hraw).1

theorem FaultAt.lt_length {header : List String} {fault : HeaderFault} (h : FaultAt header k fault) :
    k < header.length := by
  cases h with
  | marked raw hraw hmark => exact (List.getElem?_eq_some_iff.1 hraw).1
  | unnamed _ hname => exact lt_length_of_nameAt? hname
  | repeated j _ name hrun hj hk => exact hrun.lt_length

theorem sameRun_append {j : Nat} (h : k < before.length) :
    SameRun (before ++ rest) j k ↔ SameRun before j k := by
  have hopens : ∀ i, i ≤ k → opensAt (before ++ rest) i = opensAt before i := fun i hi =>
    opensAt_append (Nat.lt_of_le_of_lt hi h)
  constructor
  · rintro ⟨hlt, -, hnone⟩
    exact ⟨hlt, h, fun i hj hi => hopens i hi ▸ hnone i hj hi⟩
  · rintro ⟨hlt, -, hnone⟩
    refine ⟨hlt, by rw [List.length_append]; omega, fun i hj hi => ?_⟩
    rw [hopens i hi, hnone i hj hi]

theorem faultAt_append {fault : HeaderFault} (h : k < before.length) :
    FaultAt (before ++ rest) k fault ↔ FaultAt before k fault := by
  constructor
  · rintro (⟨raw, hraw, hmark⟩ | ⟨_, hname⟩ | ⟨j, _, name, hrun, hj, hk⟩)
    · rw [List.getElem?_append_left h] at hraw
      exact .marked raw hraw hmark
    · exact .unnamed _ (nameAt?_append h ▸ hname)
    · have hlt := Nat.lt_trans hrun.lt h
      exact .repeated j _ name ((sameRun_append h).1 hrun) (nameAt?_append hlt ▸ hj)
        (nameAt?_append h ▸ hk)
  · rintro (⟨raw, hraw, hmark⟩ | ⟨_, hname⟩ | ⟨j, _, name, hrun, hj, hk⟩)
    · exact .marked raw (by rwa [List.getElem?_append_left h]) hmark
    · exact .unnamed _ (by rwa [nameAt?_append h])
    · exact .repeated j _ name ((sameRun_append h).2 hrun)
        (by rwa [nameAt?_append (Nat.lt_trans hrun.lt h)]) (by rwa [nameAt?_append h])

theorem opensAt_last (before : List String) (raw : String) :
    opensAt (before ++ [raw]) before.length = (before.length != 0 && (splitMark (trim raw)).1) := by
  simp [opensAt]

theorem nameAt?_last (before : List String) (raw : String) :
    nameAt? (before ++ [raw]) before.length =
      some (if opensAt (before ++ [raw]) before.length then trim (splitMark (trim raw)).2
        else trim raw) := by
  simp [nameAt?]

theorem nameAt?_concat_iff {raw name other : String}
    (hname : nameAt? (before ++ [raw]) before.length = some name) :
    nameAt? (before ++ [raw]) k = some other ↔
      nameAt? before k = some other ∨ k = before.length ∧ other = name := by
  constructor
  · intro h
    have hlt := lt_length_of_nameAt? h
    rw [List.length_append, List.length_singleton] at hlt
    rcases Nat.lt_or_eq_of_le (Nat.le_of_lt_succ hlt) with hk | rfl
    · exact .inl (nameAt?_append hk ▸ h)
    · exact .inr ⟨rfl, Option.some.inj (h.symm.trans hname)⟩
  · rintro (h | ⟨rfl, rfl⟩)
    · rw [nameAt?_append (lt_length_of_nameAt? h), h]
    · exact hname

theorem openers_concat (before : List String) (raw : String) :
    openers (before ++ [raw]) = openers before ++
      if opensAt (before ++ [raw]) before.length then [before.length] else [] := by
  have hbefore : (List.range before.length).filter (opensAt (before ++ [raw])) = openers before :=
    List.filter_congr fun k hk => opensAt_append (List.mem_range.1 hk)
  rw [openers, List.length_append, List.length_singleton, List.range_succ, List.filter_append,
    hbefore, List.filter_singleton, cond_eq_ite]

end Prefix

def checkColumn (group : List String) (position : Nat) (raw : String) :
    Except HeaderFault (Bool × String) :=
  if (splitMark (trim raw)).1 then
    if position = 1 then .error (.firstOpensGroup (trim raw))
    else
      let name := trim (splitMark (trim raw)).2
      (checkName [] position name).map fun _ => (true, name)
  else (checkName group position (trim raw)).map fun _ => (false, trim raw)

theorem groupsFrom_cons (closed : List (List String)) (group : List String) (position : Nat)
    (raw : String) (rest : List String) :
    groupsFrom closed group position (raw :: rest) =
      match checkColumn group position raw with
      | .error fault => .error fault
      | .ok (true, name) => groupsFrom (closed ++ [group]) [name] (position + 1) rest
      | .ok (false, name) => groupsFrom closed (group ++ [name]) (position + 1) rest := by
  cases hopens : (splitMark (trim raw)).1 with
  | true =>
      by_cases hfirst : position = 1
      · simp [groupsFrom, checkColumn, hopens, hfirst]
      · cases hcheck : checkName [] position (trim (splitMark (trim raw)).2) <;>
          simp [groupsFrom, checkColumn, hopens, hfirst, hcheck, Except.map]
  | false =>
      have hname := splitMark_of_unmarked hopens
      cases hcheck : checkName group position (trim raw) <;>
        simp [groupsFrom, checkColumn, hopens, hname, hcheck, Except.map]

theorem of_checkColumn {before group : List String} {raw : String} {opens : Bool} {name : String}
    (h : checkColumn group (before.length + 1) raw = .ok (opens, name)) :
    opens = opensAt (before ++ [raw]) before.length ∧
      nameAt? (before ++ [raw]) before.length = some name := by
  have hmap : ∀ (check : Except HeaderFault Unit) (result : Bool × String),
      (check.map fun _ => result) = .ok (opens, name) → result = (opens, name) := by
    intro check result hr
    cases check <;> simp_all [Except.map]
  rw [nameAt?_last, opensAt_last]
  cases hmark : (splitMark (trim raw)).1 with
  | true =>
      by_cases hfirst : before.length = 0
      · simp [checkColumn, hmark, hfirst] at h
      · simp only [checkColumn, hmark, if_true, Nat.add_eq_right, hfirst, if_false] at h
        obtain ⟨rfl, rfl⟩ := Prod.mk.inj (hmap _ _ h)
        simp [hfirst]
  | false =>
      simp only [checkColumn, hmark, Bool.false_eq_true, if_false] at h
      obtain ⟨rfl, rfl⟩ := Prod.mk.inj (hmap _ _ h)
      simp

theorem checkName_eq_error {group : List String} {position : Nat} {name : String}
    {fault : HeaderFault} : checkName group position name = .error fault ↔
      name = "" ∧ fault = .emptyName position ∨
        name ≠ "" ∧ name ∈ group ∧ fault = .duplicateName name := by
  simp only [checkName, String.isEmpty_iff]
  split
  · simp_all [eq_comm]
  · split <;> simp_all [eq_comm]

structure Grouped (before : List String) (closed : List (List String)) (group : List String) :
    Prop where
  names : ∀ k, (closed ++ [group]).flatten[k]? = nameAt? before k
  starts : starts 0 (closed ++ [group]) = 0 :: openers before
  run : ∀ name, name ∈ group ↔ ∃ j, nameAt? before j = some name ∧
    ∀ i, j < i → i < before.length → opensAt before i = false
  closed_ne_nil : ∀ other ∈ closed, other ≠ []
  ne_nil : before ≠ [] → group ≠ []
  sound : ∀ k fault, ¬FaultAt before k fault

theorem grouped_nil : Grouped [] [] [] where
  names k := by simp [nameAt?]
  starts := rfl
  run name := by simp [nameAt?]
  closed_ne_nil := by simp
  ne_nil h := absurd rfl h
  sound := by
    rintro k fault (⟨raw, hraw, -⟩ | ⟨_, hname⟩ | ⟨j, _, name, hrun, -, -⟩)
    · simp at hraw
    · simp [nameAt?] at hname
    · simpa using hrun.lt_length

namespace Grouped

variable {before : List String} {closed : List (List String)} {group : List String} {raw : String}

theorem length_eq (h : Grouped before closed group) :
    (closed ++ [group]).flatten.length = before.length := by
  have hle : ∀ k, (closed ++ [group]).flatten.length ≤ k ↔ before.length ≤ k := by
    intro k
    rw [← List.getElem?_eq_none_iff, h.names k, nameAt?, Option.map_eq_none_iff,
      List.getElem?_eq_none_iff]
  exact Nat.le_antisymm ((hle _).2 (Nat.le_refl _)) ((hle _).1 (Nat.le_refl _))

theorem mem_iff_sameRun (h : Grouped before closed group)
    (hopens : opensAt (before ++ [raw]) before.length = false) (name : String) :
    name ∈ group ↔ ∃ j, SameRun (before ++ [raw]) j before.length ∧
      nameAt? (before ++ [raw]) j = some name := by
  rw [h.run]
  constructor
  · rintro ⟨j, hj, hnone⟩
    have hlt := lt_length_of_nameAt? hj
    refine ⟨j, ⟨hlt, by simp, fun i hji hi => ?_⟩, by rwa [nameAt?_append hlt]⟩
    rcases Nat.lt_or_eq_of_le hi with hi | rfl
    · rw [opensAt_append hi, hnone i hji hi]
    · exact hopens
  · rintro ⟨j, hrun, hj⟩
    rw [nameAt?_append hrun.lt] at hj
    refine ⟨j, hj, fun i hji hi => ?_⟩
    exact (opensAt_append hi).symm.trans (hrun.unopened i hji (Nat.le_of_lt hi))

theorem empty_not_mem (h : Grouped before closed group) : "" ∉ group := by
  intro hm
  obtain ⟨j, hj, -⟩ := (h.run "").1 hm
  exact h.sound j _ (.unnamed j hj)

theorem faultAt_last_iff (h : Grouped before closed group) {name : String}
    (hname : nameAt? (before ++ [raw]) before.length = some name) (fault : HeaderFault) :
    FaultAt (before ++ [raw]) before.length fault ↔
      before = [] ∧ (splitMark (trim raw)).1 = true ∧ fault = .firstOpensGroup (trim raw) ∨
        name = "" ∧ fault = .emptyName (before.length + 1) ∨
        opensAt (before ++ [raw]) before.length = false ∧ name ∈ group ∧
          fault = .duplicateName name := by
  constructor
  · intro hfault
    generalize hk : before.length = k at hfault
    cases hfault with
    | marked other hother hmark =>
        obtain rfl := List.length_eq_zero_iff.1 hk
        obtain rfl : raw = other := by simpa using hother
        exact .inl ⟨rfl, hmark, rfl⟩
    | unnamed _ hempty =>
        subst hk
        rw [hname] at hempty
        exact .inr (.inl ⟨Option.some.inj hempty, rfl⟩)
    | repeated j _ other hrun hj hlast =>
        subst hk
        rw [hname] at hlast
        obtain rfl := Option.some.inj hlast
        have hopens := hrun.unopened _ hrun.lt (Nat.le_refl _)
        exact .inr (.inr ⟨hopens, (h.mem_iff_sameRun hopens name).2 ⟨j, hrun, hj⟩, rfl⟩)
  · rintro (⟨rfl, hmark, rfl⟩ | ⟨rfl, rfl⟩ | ⟨hopens, hm, rfl⟩)
    · exact .marked raw rfl hmark
    · exact .unnamed _ hname
    · obtain ⟨j, hrun, hj⟩ := (h.mem_iff_sameRun hopens name).1 hm
      exact .repeated j _ name hrun hj hname

theorem not_mem_of_nil (h : Grouped [] closed group) (name : String) : name ∉ group := by
  rw [h.run]
  rintro ⟨j, hj, -⟩
  exact absurd (lt_length_of_nameAt? hj) (Nat.not_lt_zero j)

theorem checkColumn_eq_error_iff (h : Grouped before closed group) (fault : HeaderFault) :
    checkColumn group (before.length + 1) raw = .error fault ↔
      FaultAt (before ++ [raw]) before.length fault := by
  have hmap : ∀ (check : Except HeaderFault Unit) (result : Bool × String),
      (check.map fun _ => result) = .error fault ↔ check = .error fault := by
    intro check result
    cases check <;> simp [Except.map]
  have hopens := opensAt_last before raw
  have hname := nameAt?_last before raw
  cases hmark : (splitMark (trim raw)).1 with
  | false =>
      rw [hmark, Bool.and_false] at hopens
      rw [hopens, if_neg (by simp)] at hname
      have hne : trim raw ∈ group → trim raw ≠ "" := fun hm he => h.empty_not_mem (he ▸ hm)
      have hdup : trim raw ≠ "" ∧ trim raw ∈ group ∧ fault = .duplicateName (trim raw) ↔
          trim raw ∈ group ∧ fault = .duplicateName (trim raw) :=
        and_iff_right_of_imp fun hm => hne hm.1
      simp only [h.faultAt_last_iff hname, checkColumn, hmark, hopens, Bool.false_eq_true,
        if_false, hmap, checkName_eq_error, hdup, false_and, and_false, false_or, true_and]
  | true =>
      by_cases hfirst : before = []
      · subst hfirst
        have hopened : opensAt ([] ++ [raw]) ([] : List String).length = false := hopens
        rw [hopened, if_neg (by simp)] at hname
        have hempty : trim raw ≠ "" := by
          intro he
          simp [he, splitMark] at hmark
        have hcheck : checkColumn group 1 raw = .error (.firstOpensGroup (trim raw)) := by
          simp [checkColumn, hmark]
        rw [h.faultAt_last_iff hname, List.length_nil, Nat.zero_add, hcheck, Except.error.injEq,
          eq_comm]
        simp [hmark, hempty, h.not_mem_of_nil]
      · have hpos : before.length ≠ 0 := by simpa using hfirst
        have hopened : opensAt (before ++ [raw]) before.length = true := by
          simp [hopens, hmark, hpos]
        rw [hopened, if_pos rfl] at hname
        simp [h.faultAt_last_iff hname, checkColumn, hmark, hopened, hfirst, hmap,
          checkName_eq_error]

theorem run_next (h : Grouped before closed group) {opens : Bool} {name : String}
    (hopens : opens = opensAt (before ++ [raw]) before.length)
    (hname : nameAt? (before ++ [raw]) before.length = some name) (other : String) :
    other ∈ (if opens then [name] else group ++ [name]) ↔
      ∃ j, nameAt? (before ++ [raw]) j = some other ∧
        ∀ i, j < i → i < (before ++ [raw]).length → opensAt (before ++ [raw]) i = false := by
  simp only [nameAt?_concat_iff hname, List.length_append, List.length_singleton]
  cases opens with
  | true =>
      simp only [if_true, List.mem_singleton]
      constructor
      · rintro rfl
        exact ⟨before.length, .inr ⟨rfl, rfl⟩, fun i hi hlt => by omega⟩
      · rintro ⟨j, hj | ⟨-, rfl⟩, hnone⟩
        · have hlast := hnone before.length (lt_length_of_nameAt? hj) (Nat.lt_succ_self _)
          rw [← hopens] at hlast
          cases hlast
        · rfl
  | false =>
      simp only [Bool.false_eq_true, if_false, List.mem_append, List.mem_singleton, h.run]
      constructor
      · rintro (⟨j, hj, hnone⟩ | rfl)
        · refine ⟨j, .inl hj, fun i hi hlt => ?_⟩
          rcases Nat.lt_or_eq_of_le (Nat.le_of_lt_succ hlt) with hlt | rfl
          · rw [opensAt_append hlt, hnone i hi hlt]
          · exact hopens.symm
        · exact ⟨before.length, .inr ⟨rfl, rfl⟩, fun i hi hlt => by omega⟩
      · rintro ⟨j, hj | ⟨-, rfl⟩, hnone⟩
        · refine .inl ⟨j, hj, fun i hi hlt => ?_⟩
          exact (opensAt_append hlt).symm.trans (hnone i hi (Nat.lt_succ_of_lt hlt))
        · exact .inr rfl

theorem next (h : Grouped before closed group) {opens : Bool} {name : String}
    (hcheck : checkColumn group (before.length + 1) raw = .ok (opens, name)) :
    Grouped (before ++ [raw]) (if opens then closed ++ [group] else closed)
      (if opens then [name] else group ++ [name]) := by
  obtain ⟨hopens, hname⟩ := of_checkColumn hcheck
  have hflatten : ((if opens then closed ++ [group] else closed) ++
      [if opens then [name] else group ++ [name]]).flatten =
        (closed ++ [group]).flatten ++ [name] := by
    cases opens <;> simp
  refine ⟨fun k => ?_, ?_, h.run_next hopens hname, ?_, fun _ => by cases opens <;> simp, ?_⟩
  · rw [hflatten]
    rcases Nat.lt_trichotomy k before.length with hk | rfl | hk
    · rw [List.getElem?_append_left (h.length_eq ▸ hk), h.names, nameAt?_append hk]
    · rw [List.getElem?_append_right (Nat.le_of_eq h.length_eq), h.length_eq, Nat.sub_self, hname]
      rfl
    · rw [List.getElem?_eq_none (by simp [← h.length_eq] at hk ⊢; omega), nameAt?,
        List.getElem?_eq_none (by simp; omega)]
      rfl
  · rw [openers_concat, ← hopens, ← List.cons_append, ← h.starts]
    cases opens with
    | true =>
        simp only [if_true, starts_append _ (closed ++ [group]), h.length_eq]
        simp [Columns.starts]
    | false => simp [starts_append, Columns.starts]
  · cases opens with
    | true =>
        have hne : before ≠ [] := by
          rintro rfl
          simp [opensAt] at hopens
        exact List.forall_mem_append.2 ⟨h.closed_ne_nil, by simpa using h.ne_nil hne⟩
    | false => exact h.closed_ne_nil
  · intro k fault hfault
    have hlt := hfault.lt_length
    rw [List.length_append, List.length_singleton] at hlt
    rcases Nat.lt_or_eq_of_le (Nat.le_of_lt_succ hlt) with hlt | rfl
    · exact h.sound k fault ((faultAt_append hlt).1 hfault)
    · rw [(h.checkColumn_eq_error_iff fault).2 hfault] at hcheck
      cases hcheck

end Grouped

/-- The first column with something wrong with it. -/
def LeftmostFault (header : List String) (fault : HeaderFault) : Prop :=
  ∃ k, FaultAt header k fault ∧ ∀ j < k, ∀ other, ¬FaultAt header j other

theorem groupsFrom_spec {before : List String} {closed : List (List String)} {group : List String}
    (h : Grouped before closed group) (names : List String) :
    match groupsFrom closed group (before.length + 1) names with
    | .error fault => LeftmostFault (before ++ names) fault
    | .ok groups => ∃ closed group, groups = closed ++ [group] ∧
        Grouped (before ++ names) closed group := by
  induction names generalizing before closed group with
  | nil => exact ⟨closed, group, rfl, by rwa [List.append_nil]⟩
  | cons raw rest ih =>
      have hheader : before ++ raw :: rest = before ++ [raw] ++ rest := by simp
      rw [groupsFrom_cons, hheader]
      cases hcheck : checkColumn group (before.length + 1) raw with
      | error fault =>
          have hlast := (h.checkColumn_eq_error_iff fault).1 hcheck
          refine ⟨before.length, (faultAt_append (by simp)).2 hlast, fun j hj other hother => ?_⟩
          rw [List.append_assoc] at hother
          exact h.sound j other ((faultAt_append hj).1 hother)
      | ok checked =>
          obtain ⟨opens, name⟩ := checked
          have hnext := ih (h.next hcheck)
          rw [List.length_append, List.length_singleton] at hnext
          cases opens <;> exact hnext

theorem ofHeader_spec (header : List String) :
    match ofHeader header with
    | .error fault => header = [] ∧ fault = .noColumns ∨ LeftmostFault header fault
    | .ok columns => header ≠ [] ∧ ∃ closed group,
        columns.main :: columns.groups = closed ++ [group] ∧ Grouped header closed group := by
  have hspec := groupsFrom_spec grouped_nil header
  rw [List.nil_append, List.length_nil, Nat.zero_add] at hspec
  cases hgroups : groupsFrom [] [] 1 header with
  | error fault =>
      rw [hgroups] at hspec
      simp only [ofHeader, hgroups]
      exact .inr hspec
  | ok groups =>
      rw [hgroups] at hspec
      obtain ⟨closed, group, rfl, hgrouped⟩ := hspec
      by_cases hne : header = []
      · subst hne
        simp [ofHeader, groupsFrom]
      · obtain ⟨first, rest, hfirst⟩ : ∃ first rest, closed ++ [group] = first :: rest :=
          List.exists_cons_of_ne_nil (by simp)
        have hmain : first ≠ [] := by
          have hm : first ∈ closed ++ [group] := by simp [hfirst]
          rcases List.mem_append.1 hm with hm | hm
          · exact hgrouped.closed_ne_nil first hm
          · exact List.mem_singleton.1 hm ▸ hgrouped.ne_nil hne
        obtain ⟨name, names, rfl⟩ := List.exists_cons_of_ne_nil hmain
        simp only [ofHeader, hgroups, hfirst]
        exact ⟨hne, closed, group, hfirst.symm, hgrouped⟩

theorem LeftmostFault.ne_nil {header : List String} {fault : HeaderFault}
    (h : LeftmostFault header fault) : header ≠ [] := by
  rintro rfl
  obtain ⟨k, hfault, -⟩ := h
  exact Nat.not_lt_zero k hfault.lt_length

theorem LeftmostFault.unique {header : List String} {fault other : HeaderFault}
    (h : LeftmostFault header fault) (h' : LeftmostFault header other) : fault = other := by
  obtain ⟨k, hfault, hfirst⟩ := h
  obtain ⟨k', hother, hfirst'⟩ := h'
  obtain rfl : k = k' := by
    rcases Nat.lt_trichotomy k k' with hlt | rfl | hlt
    · exact absurd hfault (hfirst' k hlt fault)
    · rfl
    · exact absurd hother (hfirst k' hlt other)
  -- a name that is empty cannot be there before
  have hempty : ∀ j, SameRun header j k → nameAt? header j = some "" → False := fun j hrun hj =>
    hfirst j hrun.lt _ (.unnamed j hj)
  have hmarked : ∀ raw, header[0]? = some raw → (splitMark (trim raw)).1 = true →
      nameAt? header 0 ≠ some "" := by
    intro raw hraw hmark hname
    have he : trim raw = "" := by simpa [nameAt?, hraw, opensAt] using hname
    simp [he, splitMark] at hmark
  cases hfault with
  | marked raw hraw hmark =>
      cases hother with
      | marked raw' hraw' hmark' => rw [Option.some.inj (hraw.symm.trans hraw')]
      | unnamed _ hname => exact absurd hname (hmarked raw hraw hmark)
      | repeated j _ name hrun hj hk => exact absurd hrun.lt (Nat.not_lt_zero j)
  | unnamed _ hname =>
      cases hother with
      | marked raw hraw hmark => exact absurd hname (hmarked raw hraw hmark)
      | unnamed _ hname' => rfl
      | repeated j _ name hrun hj hk =>
          rw [hname] at hk
          cases hk
          exact (hempty j hrun hj).elim
  | repeated j _ name hrun hj hk =>
      cases hother with
      | marked raw hraw hmark => exact absurd hrun.lt (Nat.not_lt_zero j)
      | unnamed _ hname =>
          rw [hname] at hk
          cases hk
          exact (hempty j hrun hj).elim
      | repeated j' _ name' hrun' hj' hk' => rw [Option.some.inj (hk.symm.trans hk')]

/-- A header that has columns, the first of which opens no group, each with a name that is its
own in its run. -/
structure WellNamed (header : List String) : Prop where
  ne_nil : header ≠ []
  unmarked : ∀ raw ∈ header.head?, (splitMark (trim raw)).1 = false
  named : ∀ k, nameAt? header k ≠ some ""
  distinct : ∀ j k, SameRun header j k → nameAt? header j ≠ nameAt? header k

theorem wellNamed_iff {header : List String} :
    WellNamed header ↔ header ≠ [] ∧ ∀ k fault, ¬FaultAt header k fault := by
  constructor
  · rintro ⟨hne, hunmarked, hnamed, hdistinct⟩
    refine ⟨hne, ?_⟩
    rintro k fault (⟨raw, hraw, hmark⟩ | ⟨_, hname⟩ | ⟨j, _, name, hrun, hj, hk⟩)
    · rw [hunmarked raw (by rwa [List.head?_eq_getElem?])] at hmark
      cases hmark
    · exact hnamed k hname
    · exact hdistinct j k hrun (hj.trans hk.symm)
  · rintro ⟨hne, hsound⟩
    refine ⟨hne, fun raw hraw => ?_, fun k hname => hsound k _ (.unnamed k hname), ?_⟩
    · rw [List.head?_eq_getElem?] at hraw
      exact Bool.eq_false_iff.2 fun hmark => hsound 0 _ (.marked raw hraw hmark)
    · intro j k hrun he
      obtain ⟨name, hname⟩ : ∃ name, nameAt? header k = some name := by
        rw [nameAt?, List.getElem?_eq_getElem hrun.lt_length]
        exact ⟨_, rfl⟩
      exact hsound k _ (.repeated j k name hrun (he.trans hname) hname)

theorem position?_eq_some_iff {columns : Columns} (h : columns.main.Nodup) (name : String) (i : Nat) :
    columns.position? name = some i ↔ columns.main[i]? = some name := by
  rw [position?, List.findIdx?_eq_some_iff_getElem, List.getElem?_eq_some_iff]
  simp only [beq_iff_eq]
  constructor
  · rintro ⟨hi, hname, -⟩
    exact ⟨hi, hname⟩
  · rintro ⟨hi, rfl⟩
    refine ⟨hi, rfl, fun j hj he => ?_⟩
    rw [h.getElem_inj_iff] at he
    exact absurd he (Nat.ne_of_lt hj)

/-- A header is accepted just if it is well named. Its columns are then dealt out to groups in
order, each column to one of them, and a group starts at the first column and at each that opens
one. Otherwise the first column with something wrong with it is named. -/
theorem ofHeader_partitions (header : List String) :
    ((∃ columns, ofHeader header = .ok columns) ↔ WellNamed header) ∧
    (∀ columns, ofHeader header = .ok columns →
      let groups := columns.main :: columns.groups
      (∀ group ∈ groups, group ≠ []) ∧ starts 0 groups = 0 :: openers header ∧
      (∀ k < header.length, ∃! g, Holds 0 groups g k) ∧
      (∀ k, columns.names[k]? = nameAt? header k) ∧
      (∀ i, columns.groups[i]? = none ↔ (openers header).length ≤ i) ∧
      ∀ name i, columns.position? name = some i ↔ columns.main[i]? = some name) ∧
    ∀ fault, ofHeader header = .error fault ↔
      header = [] ∧ fault = .noColumns ∨ LeftmostFault header fault := by
  have hspec := ofHeader_spec header
  rw [wellNamed_iff]
  cases ho : ofHeader header with
  | ok columns =>
      rw [ho] at hspec
      obtain ⟨hne, closed, group, hgroups, hgrouped⟩ := hspec
      refine ⟨⟨fun _ => ⟨hne, hgrouped.sound⟩, fun _ => ⟨columns, rfl⟩⟩, ?_, fun fault => ?_⟩
      · rintro _ ⟨⟩
        have hnames : columns.names = (closed ++ [group]).flatten := by
          rw [← hgroups, List.flatten_cons, names]
        have hlength := hgrouped.length_eq
        have hstarts := hgrouped.starts
        rw [← hgroups] at hlength hstarts
        refine ⟨?_, hstarts, fun k hk => ?_, fun k => ?_, fun i => ?_, ?_⟩
        · rw [hgroups]
          exact List.forall_mem_append.2 ⟨hgrouped.closed_ne_nil, by simpa using hgrouped.ne_nil hne⟩
        · exact existsUnique_holds (Nat.zero_le k) (by omega)
        · rw [hnames, hgrouped.names]
        · have hlength : columns.groups.length = (openers header).length := by
            have hboth := congrArg List.length hstarts
            rwa [length_starts, List.length_cons, List.length_cons, Nat.add_left_inj] at hboth
          rw [List.getElem?_eq_none_iff, hlength]
        · exact position?_eq_some_iff (wellFormed_of_ofHeader ho).main.nodup
      · constructor
        · rintro ⟨⟩
        · rintro (⟨hnil, -⟩ | ⟨k, hfault, -⟩)
          · exact absurd hnil hne
          · exact absurd hfault (hgrouped.sound k fault)
  | error found =>
      rw [ho] at hspec
      refine ⟨⟨?_, ?_⟩, ?_, fun fault => ?_⟩
      · rintro ⟨_, ⟨⟩⟩
      · rintro ⟨hne, hsound⟩
        rcases hspec with ⟨hnil, -⟩ | ⟨k, hfault, -⟩
        · exact absurd hnil hne
        · exact absurd hfault (hsound k found)
      · rintro _ ⟨⟩
      · rw [Except.error.injEq]
        constructor
        · rintro rfl
          exact hspec
        · rintro (⟨hnil, rfl⟩ | hleft)
          · exact hspec.elim And.right fun h => absurd hnil h.ne_nil
          · exact hspec.elim (fun h => absurd h.1 hleft.ne_nil) fun h => h.unique hleft

theorem ofHeader_partitions_marks :
    let header := [" id ", "v", "* v", "*v", " w", "* \u00a0* "]
    let columns : Columns := ⟨["id", "v"], [["v"], ["v", "w"], ["*"]]⟩
    ofHeader header = .ok columns ∧ WellNamed header ∧ openers header = [2, 3, 5] ∧
      starts 0 (columns.main :: columns.groups) = [0, 2, 3, 5] ∧
      columns.names[5]? = nameAt? header 5 ∧ columns.position? "v" = some 1 := by
  intro header columns
  have hcolumns : ofHeader header = .ok columns := rfl
  obtain ⟨haccepted, hsettled, -⟩ := ofHeader_partitions header
  obtain ⟨-, hstarts, -, hnames, -, hposition⟩ := hsettled columns hcolumns
  have hopeners : openers header = [2, 3, 5] := by decide +kernel
  exact ⟨hcolumns, haccepted.1 ⟨columns, hcolumns⟩, hopeners, hopeners ▸ hstarts, hnames 5,
    (hposition "v" 1).2 rfl⟩

end DefinitionFiles.Columns
