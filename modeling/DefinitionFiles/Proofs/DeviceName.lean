import DefinitionFiles.DeviceName
import DefinitionFiles.Proofs.Lists
import DefinitionFiles.Proofs.Mapping.Values
import Mathlib

namespace DefinitionFiles

theorem Char.eq_lineFeed_of_toLower {c : Char} (h : c.toLower = '\n') : c = '\n' := by
  simp only [Char.toLower] at h
  split at h
  · rename_i hcapital
    have hlow : 65 ≤ c.val.toNat := UInt32.le_iff_toNat_le.1 hcapital.1
    have hhigh : c.val.toNat ≤ 90 := UInt32.le_iff_toNat_le.1 hcapital.2
    have hval : (c.val.toNat + 32) % 2 ^ 32 = 10 := congrArg (·.val.toNat) h
    omega
  · exact h

namespace DeviceName

theorem names_of_readParts {parts found : Parts} {pieces : List (List Char)}
    (h : readParts parts pieces = some found) :
    ∀ name ∈ found.names, name ∈ parts.names ∨ name ∈ pieces := by
  induction pieces generalizing parts with
  | nil =>
      obtain rfl : parts = found := by simpa [readParts] using h
      exact fun name hname => .inl hname
  | cons piece pieces ih =>
      intro name hname
      have hversion {next : Parts} (hnext : readParts next pieces = some found)
          (hnames : next.names = parts.names) : name ∈ parts.names ∨ name ∈ piece :: pieces :=
        hnames ▸ (ih hnext name hname).imp_right (List.mem_cons_of_mem piece)
      simp only [readParts] at h
      split at h
      · exact hversion h rfl
      · split at h
        · exact hversion h rfl
        · split at h
          · rcases ih h name hname with hnames | hrest
            · rcases List.mem_append.1 hnames with hnames | hpiece
              · exact .inl hnames
              · exact .inr (List.mem_singleton.1 hpiece ▸ List.mem_cons_self)
            · exact .inr (List.mem_cons_of_mem piece hrest)
          · cases h

theorem lineFeed_not_mem_nonEmpty {names : List (List Char)} (h : ∀ name ∈ names, '\n' ∉ name)
    {i : Nat} {name : List Char} (hname : nonEmpty? names[i]? = some name) : '\n' ∉ name := by
  rw [nonEmpty?, Option.filter_eq_some_iff] at hname
  exact h name (List.mem_of_getElem? hname.1)

theorem lineFeed_not_mem_ofParts {zz ident : List Char} (hzz : '\n' ∉ zz) (hident : '\n' ∉ ident)
    (address : Nat) {parts : Parts} (hnames : ∀ name ∈ parts.names, '\n' ∉ name) :
    (ofParts zz ident address parts).values.AllValues ('\n' ∉ ·.toList) := by
  have hlower : ∀ c ∈ zz, c.toLower ≠ '\n' :=
    fun c hc he => hzz (Char.eq_lineFeed_of_toLower he ▸ hc)
  have hcircuit : '\n' ∉ (nonEmpty? parts.names[0]?).getD ident := by
    cases hn : nonEmpty? parts.names[0]? with
    | none => exact hident
    | some name => exact lineFeed_not_mem_nonEmpty hnames hn
  let seeded : List (String × String) := [("zz", String.ofList (zz.map Char.toLower)),
    ("ident", String.ofList ident),
    ("circuit", String.ofList ((nonEmpty? parts.names[0]?).getD ident))]
  have hentries : ∀ entry ∈ seeded, '\n' ∉ entry.2.toList := by
    simpa [seeded] using ⟨hlower, hident, hcircuit⟩
  have hseeded : Record.AllValues ('\n' ∉ ·.toList) (Std.ExtTreeMap.ofList seeded) :=
    Record.allValues_ofList (by simp) hentries
  simp only [ofParts]
  split
  · exact hseeded
  · rename_i name hn
    exact hseeded.insert "suffix" (by simpa using lineFeed_not_mem_nonEmpty hnames hn)

theorem exists_of_parse {fileName : String} {device : DeviceName}
    (h : parse fileName = some device) :
    ∃ zz ident rest address parts, (fileName.toList.splitOn '.').dropLast = zz :: ident :: rest ∧
      (zz.length = 2 ∧ ident ≠ []) ∧ Text.ofHex zz = some address ∧
        readParts {} rest = some parts ∧ device = ofParts zz ident address parts := by
  simp only [parse] at h
  split at h
  · rename_i zz ident rest hsplit
    split at h
    · rename_i hform
      split at h
      · rename_i address parts haddress hparts
        exact ⟨zz, ident, rest, address, parts, hsplit, hform, haddress, hparts,
          (Option.some.inj h).symm⟩
      · cases h
    · cases h
  · cases h

theorem lineFeed_not_mem_of_parse {fileName : String} {device : DeviceName}
    (h : parse fileName = some device) (hname : '\n' ∉ fileName.toList) :
    device.values.AllValues ('\n' ∉ ·.toList) := by
  have hpieces : ∀ piece ∈ (fileName.toList.splitOn '.').dropLast, '\n' ∉ piece :=
    fun piece hp hc => hname ((List.of_mem_splitOn (List.dropLast_subset _ hp)).2 hc)
  obtain ⟨zz, ident, rest, address, parts, hsplit, -, -, hparts, rfl⟩ := exists_of_parse h
  rw [hsplit] at hpieces
  obtain ⟨hzz, hpieces⟩ := List.forall_mem_cons.1 hpieces
  obtain ⟨hident, hrest⟩ := List.forall_mem_cons.1 hpieces
  refine lineFeed_not_mem_ofParts hzz hident address fun name hname => ?_
  exact hrest name ((names_of_readParts hparts name hname).resolve_left List.not_mem_nil)

end DeviceName

end DefinitionFiles
