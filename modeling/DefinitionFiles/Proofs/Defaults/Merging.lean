import DefinitionFiles.Proofs.Defaults.Layers
import Mathlib.Data.List.Forall2
import Mathlib.Data.List.Induction

namespace DefinitionFiles

namespace Record

theorem overlay_assoc (first second third : Record) :
    (first.overlay second).overlay third = first.overlay (second.overlay third) := by
  apply Std.ExtTreeMap.ext_getElem?
  intro name
  simp only [getElem?_overlay, Option.or_assoc]

@[simp] theorem overlay_self (record : Record) : record.overlay record = record := by
  apply Std.ExtTreeMap.ext_getElem?
  intro name
  rw [getElem?_overlay, Option.or_self]

end Record

namespace Defaults

theorem nil_overlaySubs (above : List Record) : overlaySubs [] above = above := by
  cases above <;> rfl

theorem overlaySubs_assoc (first second third : List Record) :
    overlaySubs (overlaySubs first second) third = overlaySubs first (overlaySubs second third) := by
  induction first generalizing second third with
  | nil => rw [nil_overlaySubs, nil_overlaySubs]
  | cons sub first ih =>
      cases second with
      | nil => rw [overlaySubs_nil, nil_overlaySubs]
      | cons top second =>
          cases third with
          | nil => rw [overlaySubs_nil, overlaySubs_nil]
          | cons last third => simp only [overlaySubs, Record.overlay_assoc, ih]

theorem overlaySubs_self (subs : List Record) : overlaySubs subs subs = subs := by
  induction subs with
  | nil => rfl
  | cons sub subs ih => rw [overlaySubs, Record.overlay_self, ih]

theorem merge_assoc (first second third : Defaults) :
    (first.merge second).merge third = first.merge (second.merge third) := by
  simp only [merge, Record.overlay_assoc, overlaySubs_assoc]

@[simp] theorem merge_empty (defaults : Defaults) : defaults.merge {} = defaults := by
  simp only [merge, Record.overlay_empty, overlaySubs_nil]

@[simp] theorem empty_merge (defaults : Defaults) : merge {} defaults = defaults := by
  simp only [merge, Record.empty_overlay, nil_overlaySubs]

@[simp] theorem merge_self (defaults : Defaults) : defaults.merge defaults = defaults := by
  simp only [merge, Record.overlay_self, overlaySubs_self]

instance : Std.Associative merge := ⟨merge_assoc⟩

def mergeAll (entries : List Defaults) : Defaults := entries.foldl merge {}

theorem mergeAll_append (entries more : List Defaults) :
    mergeAll (entries ++ more) = (mergeAll entries).merge (mergeAll more) :=
  calc
    mergeAll (entries ++ more) = more.foldl merge (mergeAll entries) := List.foldl_append
    _ = more.foldl merge ((mergeAll entries).merge {}) := by rw [merge_empty]
    _ = (mergeAll entries).merge (mergeAll more) := List.foldl_assoc

@[simp] theorem mergeAll_singleton (entry : Defaults) : mergeAll [entry] = entry := empty_merge entry

/-- Entries that are merged two at a time, in their order but in any grouping, and what comes
of it. -/
inductive MergesTo : List Defaults → Defaults → Prop
  | single (entry : Defaults) : MergesTo [entry] entry
  | both {first second : List Defaults} {below above : Defaults} (hfirst : MergesTo first below)
      (hsecond : MergesTo second above) : MergesTo (first ++ second) (below.merge above)

theorem MergesTo.eq_mergeAll {entries : List Defaults} {entry : Defaults} (h : MergesTo entries entry) :
    entry = mergeAll entries := by
  induction h with
  | single entry => exact (mergeAll_singleton entry).symm
  | both _ _ ihfirst ihsecond => rw [mergeAll_append, ← ihfirst, ← ihsecond]

theorem MergesTo.ne_nil {entries : List Defaults} {entry : Defaults} (h : MergesTo entries entry) :
    entries ≠ [] := by
  induction h with
  | single entry => simp
  | both _ _ ih _ => exact List.append_ne_nil_of_left_ne_nil ih _

/-- The second entries are what runs of the first ones merge to, all in their order. -/
def Batches (entries batched : List Defaults) : Prop :=
  ∃ runs : List (List Defaults), runs.flatten = entries ∧ List.Forall₂ MergesTo runs batched

theorem Batches.mergeAll_eq {entries batched : List Defaults} (h : Batches entries batched) :
    mergeAll batched = mergeAll entries := by
  obtain ⟨runs, rfl, hruns⟩ := h
  induction hruns with
  | nil => rfl
  | @cons run entry runs batched hrun _ ih =>
      rw [List.flatten_cons, mergeAll_append, ← List.singleton_append, mergeAll_append,
        mergeAll_singleton, ih, hrun.eq_mergeAll]

theorem Batches.eq_nil_iff {entries batched : List Defaults} (h : Batches entries batched) :
    batched = [] ↔ entries = [] := by
  obtain ⟨runs, rfl, hruns⟩ := h
  cases hruns with
  | nil => simp
  | cons hrun hrest => simp [hrun.ne_nil]

/-- What a category holds after some merges into it. -/
def held (before : Option Defaults) (entries : List Defaults) : Option Defaults :=
  if entries = [] then before else some ((before.getD {}).merge (mergeAll entries))

theorem getD_held (before : Option Defaults) (entries : List Defaults) :
    (held before entries).getD {} = (before.getD {}).merge (mergeAll entries) := by
  rw [held]
  split
  · rename_i hnone
    simp [hnone, mergeAll]
  · rfl

theorem held_concat (before : Option Defaults) (entries : List Defaults) (entry : Defaults) :
    held before (entries ++ [entry]) = some (((held before entries).getD {}).merge entry) := by
  rw [held, if_neg (by simp), getD_held, mergeAll_append, mergeAll_singleton, merge_assoc]

theorem Batches.held_eq {entries batched : List Defaults} (h : Batches entries batched)
    (before : Option Defaults) : held before batched = held before entries := by
  simp only [held, h.eq_nil_iff, h.mergeAll_eq]

end Defaults

def entriesInto (category : String) (calls : List MergeCall) : List Defaults :=
  (calls.filter (·.category = category)).map MergeCall.entry

theorem entriesInto_concat (category : String) (calls : List MergeCall) (call : MergeCall) :
    entriesInto category (calls ++ [call]) =
      entriesInto category calls ++ if call.category = category then [call.entry] else [] := by
  by_cases h : call.category = category <;> simp [entriesInto, h]

namespace DefaultsTable

theorem ext_get? {table other : DefaultsTable} (h : ∀ category, table.get? category = other.get? category) :
    table = other := by
  obtain ⟨entries⟩ := table
  obtain ⟨others⟩ := other
  exact congrArg mk (Std.ExtTreeMap.ext_getElem? h)

def mergeEach (table : DefaultsTable) (calls : List MergeCall) : DefaultsTable :=
  calls.foldl (fun table call => table.merge call.category call.entry) table

theorem get?_mergeEach (table : DefaultsTable) (calls : List MergeCall) (category : String) :
    (table.mergeEach calls).get? category =
      Defaults.held (table.get? category) (entriesInto category calls) := by
  -- from the end, where the entry of a call is laid over the merge of those before it
  induction calls using List.reverseRecOn with
  | nil => rfl
  | append_singleton calls call ih =>
      rw [mergeEach, List.foldl_append, List.foldl_cons, List.foldl_nil, ← mergeEach, get?_merge,
        entriesInto_concat]
      by_cases hsame : call.category = category
      · subst hsame
        rw [if_pos rfl, if_pos rfl, Defaults.held_concat, ← ih, merged]
      · rw [if_neg hsame, if_neg hsame, List.append_nil, ih]

theorem merged_mergeEach (table : DefaultsTable) (calls : List MergeCall) (call : MergeCall) :
    (table.mergeEach calls).merged call.category call.entry =
      ((table.get? call.category).getD {}).merge
        (Defaults.mergeAll (entriesInto call.category (calls ++ [call]))) := by
  rw [merged, get?_mergeEach, Defaults.getD_held, entriesInto_concat, if_pos rfl,
    Defaults.mergeAll_append, Defaults.mergeAll_singleton, Defaults.merge_assoc]

end DefaultsTable

namespace SharedTables

def IsHandle (shared : SharedTables) (handle index : Nat) : Prop :=
  shared.handles[handle]? = some index ∧ index < shared.tables.size

variable {shared : SharedTables} {handle other index : Nat}

theorem IsHandle.set (h : shared.IsHandle handle index) (other : Nat) (table : DefaultsTable) :
    (shared.set other table).IsHandle handle index := by
  simp only [SharedTables.set]
  split
  · exact h
  · exact ⟨h.1, by simpa using h.2⟩

theorem IsHandle.table_set (h : shared.IsHandle handle index) (h' : shared.IsHandle other index)
    (table : DefaultsTable) : (shared.set handle table).table other = table := by
  simp [SharedTables.set, SharedTables.table, h.1, h'.1, h.2]

theorem IsHandle.table_eq (h : shared.IsHandle handle index) (h' : shared.IsHandle other index) :
    shared.table handle = shared.table other := by
  simp only [SharedTables.table, h.1, h'.1]

def mergeAll (shared : SharedTables) : List MergeCall → List Defaults × SharedTables
  | [] => ([], shared)
  | call :: calls =>
      let (copy, next) := shared.merge call
      let (copies, last) := next.mergeAll calls
      (copy :: copies, last)

theorem table_mergeAll (calls : List MergeCall)
    (hcalls : ∀ call ∈ calls, shared.IsHandle call.handle index) (h : shared.IsHandle handle index) :
    (shared.mergeAll calls).2.table handle = (shared.table handle).mergeEach calls := by
  induction calls generalizing shared with
  | nil => rfl
  | cons call calls ih =>
      obtain ⟨hcall, hrest⟩ := List.forall_mem_cons.1 hcalls
      let next := (shared.merge call).2
      have hnext : (next.mergeAll calls).2.table handle = (next.table handle).mergeEach calls :=
        ih (fun other ho => (hrest other ho).set call.handle _) (h.set call.handle _)
      have htable : next.table handle = (shared.table handle).merge call.category call.entry := by
        rw [← hcall.table_eq h]
        exact hcall.table_set h _
      rw [htable] at hnext
      exact hnext

theorem getElem?_copies (shared : SharedTables) (earlier : List MergeCall) (call : MergeCall)
    (later : List MergeCall) :
    (shared.mergeAll (earlier ++ call :: later)).1[earlier.length]? =
      some ((shared.mergeAll earlier).2.merge call).1 := by
  induction earlier generalizing shared with
  | nil => rfl
  | cons first earlier ih => exact ih (shared.merge first).2

theorem length_copies (shared : SharedTables) (calls : List MergeCall) :
    (shared.mergeAll calls).1.length = calls.length := by
  induction calls generalizing shared with
  | nil => rfl
  | cons call calls ih => exact congrArg (· + 1) (ih (shared.merge call).2)

/-- Merging is associative and idempotent, the entry without values is neutral, and the later
entry lies over the earlier one, place by place. So what a category holds after some merges through
the handles of one table, and the copy that each of them gives, is settled by the merges into
that category: those into others may come at any time, and its own may be merged beforehand. -/
theorem mergeAll_by_category :
    (∀ first second third : Defaults,
      (first.merge second).merge third = first.merge (second.merge third)) ∧
    (∀ entry : Defaults,
      Defaults.merge {} entry = entry ∧ entry.merge {} = entry ∧ entry.merge entry = entry) ∧
    (∀ below above : Defaults,
      (below.merge above).subs.length = max below.subs.length above.subs.length ∧
        ∀ place (name : String), ((below.merge above).part place)[name]? =
          ((above.part place)[name]?).or (below.part place)[name]?) ∧
    ∀ (shared : SharedTables) (index handle : Nat) (calls : List MergeCall),
      shared.IsHandle handle index → (∀ call ∈ calls, shared.IsHandle call.handle index) →
        let before := shared.table handle
        let (copies, after) := shared.mergeAll calls
        (∀ category, (after.table handle).get? category =
          Defaults.held (before.get? category) (entriesInto category calls)) ∧
        copies.length = calls.length ∧
        (∀ earlier call later, calls = earlier ++ call :: later →
          copies[earlier.length]? = some (((before.get? call.category).getD {}).merge
            (Defaults.mergeAll (entriesInto call.category (earlier ++ [call]))))) ∧
        ∀ others : List MergeCall, (∀ call ∈ others, shared.IsHandle call.handle index) →
          ((∀ category, entriesInto category others = entriesInto category calls) →
            (shared.mergeAll others).2.table handle = after.table handle) ∧
          ((∀ category,
            Defaults.Batches (entriesInto category calls) (entriesInto category others)) →
              (shared.mergeAll others).2.table handle = after.table handle) := by
  refine ⟨Defaults.merge_assoc, fun entry => ⟨entry.empty_merge, entry.merge_empty, entry.merge_self⟩,
    fun below above => ⟨Defaults.length_overlaySubs _ _, fun place name => ?_⟩, ?_⟩
  · rw [Defaults.part_merge, Record.getElem?_overlay]
  intro shared index handle calls hhandle hcalls before
  have hafter : (shared.mergeAll calls).2.table handle = before.mergeEach calls :=
    table_mergeAll calls hcalls hhandle
  refine ⟨fun category => ?_, length_copies shared calls, ?_, fun others hothers => ?_⟩
  · rw [hafter, DefaultsTable.get?_mergeEach]
  · rintro earlier call later rfl
    obtain ⟨hearlier, hlater⟩ := List.forall_mem_append.1 hcalls
    have hcall := hlater call List.mem_cons_self
    have htable : (shared.mergeAll earlier).2.table call.handle = before.mergeEach earlier := by
      rw [table_mergeAll earlier hearlier hcall, hcall.table_eq hhandle]
    rw [getElem?_copies, merge, htable, DefaultsTable.merged_mergeEach]
  · have hsame (h : ∀ category, Defaults.held (before.get? category) (entriesInto category others) =
        Defaults.held (before.get? category) (entriesInto category calls)) :
        (shared.mergeAll others).2.table handle = (shared.mergeAll calls).2.table handle := by
      rw [hafter, table_mergeAll others hothers hhandle]
      refine DefaultsTable.ext_get? fun category => ?_
      rw [DefaultsTable.get?_mergeEach, DefaultsTable.get?_mergeEach, h]
    exact ⟨fun h => hsame fun category => by rw [h],
      fun h => hsame fun category => (h category).held_eq _⟩

theorem mergeAll_by_category_batched :
    let shared := ({} : SharedTables).share 0
    let first : Defaults := { base := .ofList [("circuit", "bai"), ("unit", "C")] }
    let second : Defaults := { base := .ofList [("unit", "")], subs := [∅, .ofList [("name", "x")]] }
    let other : Defaults := { subs := [.ofList [("name", "y")]] }
    let calls : List MergeCall := [⟨0, "r", first⟩, ⟨1, "w", other⟩, ⟨1, "r", second⟩]
    let others : List MergeCall := [⟨1, "w", other⟩, ⟨0, "r", first.merge second⟩]
    shared.IsHandle 0 0 ∧ (∀ call ∈ calls ++ others, shared.IsHandle call.handle 0) ∧
      (∀ category,
        Defaults.Batches (entriesInto category calls) (entriesInto category others)) ∧
      ((shared.mergeAll calls).2.table 0).get? "r" = some (first.merge second) ∧
      (shared.mergeAll calls).1[2]? = some (first.merge second) ∧
      first.merge second = ⟨.ofList [("circuit", "bai"), ("unit", "")],
        [∅, .ofList [("name", "x")]]⟩ ∧
      (shared.mergeAll others).2.table 0 = (shared.mergeAll calls).2.table 0 := by
  intro shared first second other calls others
  have hhandle : shared.IsHandle 0 0 := ⟨rfl, Nat.one_pos⟩
  have hall : ∀ call ∈ calls ++ others, shared.IsHandle call.handle 0 := by
    have hother : shared.IsHandle 1 0 := ⟨rfl, Nat.one_pos⟩
    simp [calls, others, hhandle, hother]
  obtain ⟨hcalls, hothers⟩ := List.forall_mem_append.1 hall
  have hbatches : ∀ category,
      Defaults.Batches (entriesInto category calls) (entriesInto category others) := by
    intro category
    by_cases hr : category = "r"
    · subst hr
      exact ⟨[[first, second]], rfl,
        .cons (.both (.single first) (.single second)) .nil⟩
    · by_cases hw : category = "w"
      · subst hw
        exact ⟨[[other]], rfl, .cons (.single other) .nil⟩
      · refine ⟨[], ?_, ?_⟩
        all_goals simp [entriesInto, calls, others, Ne.symm hr, Ne.symm hw]
  obtain ⟨-, -, -, hlaws⟩ := mergeAll_by_category
  obtain ⟨hheld, -, hcopies, hsame⟩ := hlaws shared 0 0 calls hhandle hcalls
  exact ⟨hhandle, hall, hbatches, (hheld "r").trans (by decide +kernel),
    (hcopies [⟨0, "r", first⟩, ⟨1, "w", other⟩] ⟨1, "r", second⟩ [] rfl).trans (by decide +kernel),
    by decide +kernel, (hsame others hothers).2 hbatches⟩

end SharedTables

end DefinitionFiles
