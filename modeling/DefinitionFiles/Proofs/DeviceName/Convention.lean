import DefinitionFiles.Proofs.DeviceName
import Mathlib

namespace DefinitionFiles

namespace DeviceName

inductive VersionKind
  | hardware
  | software
deriving DecidableEq, Repr

def VersionKind.tag : VersionKind → List Char
  | .hardware => ['h', 'w']
  | .software => ['s', 'w']

def VersionKind.States (kind : VersionKind) (part : List Char) : Prop :=
  ∃ letters digits, part = letters ++ digits ∧ letters.map Char.toLower = kind.tag ∧
    digits.length = 4 ∧ ∀ c ∈ digits, c.isDigit = true

def IsHexDigit (c : Char) : Prop :=
  ('0' ≤ c ∧ c ≤ '9') ∨ ('a' ≤ c ∧ c ≤ 'f') ∨ ('A' ≤ c ∧ c ≤ 'F')

structure NameParts where
  zz : List Char
  ident : List Char
  names : List (List Char)
  kinds : List VersionKind
  versions : List (List Char)
  extension : List Char

namespace NameParts

def all (parts : NameParts) : List (List Char) :=
  parts.zz :: parts.ident :: (parts.names ++ parts.versions) ++ [parts.extension]

def text (parts : NameParts) : List Char := ['.'].intercalate parts.all

/-- Parts in the order of the convention. -/
structure Ordered (parts : NameParts) : Prop where
  separate : ∀ part ∈ parts.all, '.' ∉ part
  zz : parts.zz.length = 2 ∧ ∀ c ∈ parts.zz, IsHexDigit c
  ident : parts.ident ≠ []
  names : parts.names.length ≤ 2
  versions : List.Forall₂ VersionKind.States parts.kinds parts.versions

/-- The convention: a version of each kind is stated once at most. -/
structure Conventional (parts : NameParts) : Prop extends Ordered parts where
  once : parts.kinds.Nodup

/-- No further name could be taken for a version. -/
def Unambiguous (parts : NameParts) : Prop :=
  ∀ name ∈ parts.names, ∀ kind : VersionKind, ¬kind.States name

end NameParts

theorem versionOf_eq_some_iff {kind : VersionKind} {part digits : List Char} :
    versionOf kind.tag part = some digits ↔ part.drop 2 = digits ∧
      (part.take 2).map Char.toLower = kind.tag ∧ digits.length = 4 ∧
        ∀ c ∈ digits, c.isDigit = true := by
  simp only [versionOf]
  constructor
  · intro h
    split at h
    · rename_i hstates
      cases h
      exact ⟨rfl, hstates.1, hstates.2.1, List.all_eq_true.1 hstates.2.2⟩
    · cases h
  · rintro ⟨rfl, htag, hlength, hdigits⟩
    exact if_pos ⟨htag, hlength, List.all_eq_true.2 hdigits⟩

theorem states_iff {kind : VersionKind} {part : List Char} :
    kind.States part ↔ (versionOf kind.tag part).isSome := by
  simp only [Option.isSome_iff_exists, versionOf_eq_some_iff]
  constructor
  · rintro ⟨letters, digits, rfl, hletters, hlength, hdigits⟩
    have htwo : letters.length = 2 := by
      rw [← List.length_map Char.toLower, hletters]
      cases kind <;> rfl
    refine ⟨digits, List.drop_left' htwo, ?_, hlength, hdigits⟩
    rw [List.take_left' htwo, hletters]
  · rintro ⟨digits, rfl, hletters, hlength, hdigits⟩
    exact ⟨part.take 2, part.drop 2, (List.take_append_drop 2 part).symm, hletters, hlength, hdigits⟩

instance (kind : VersionKind) (part : List Char) : Decidable (kind.States part) :=
  decidable_of_iff _ states_iff.symm

theorem States.kind_eq {kind other : VersionKind} {part : List Char} (h : kind.States part)
    (h' : other.States part) : kind = other := by
  obtain ⟨_, hk⟩ := Option.isSome_iff_exists.1 (states_iff.1 h)
  obtain ⟨_, ho⟩ := Option.isSome_iff_exists.1 (states_iff.1 h')
  have htag : kind.tag = other.tag :=
    (versionOf_eq_some_iff.1 hk).2.1.symm.trans (versionOf_eq_some_iff.1 ho).2.1
  cases kind <;> cases other
  all_goals simp_all [VersionKind.tag]

def Parts.Begun (parts : Parts) : Prop :=
  (parts.hardware.isNone && parts.software.isNone) = false

def Parts.withVersion (parts : Parts) (digits : List Char) : VersionKind → Parts
  | .hardware => { parts with hardware := some digits }
  | .software => { parts with software := some digits }

theorem Parts.begun_withVersion (parts : Parts) (digits : List Char) (kind : VersionKind) :
    (parts.withVersion digits kind).Begun := by
  cases kind with
  | hardware => rfl
  | software => exact Bool.and_false _

theorem readParts_withVersion {kind : VersionKind} {part : List Char} (h : kind.States part)
    (parts : Parts) (rest : List (List Char)) :
    readParts parts (part :: rest) = readParts (parts.withVersion (part.drop 2) kind) rest := by
  obtain ⟨digits, hdigits⟩ := Option.isSome_iff_exists.1 (states_iff.1 h)
  obtain rfl : part.drop 2 = digits := (versionOf_eq_some_iff.1 hdigits).1
  cases kind with
  | hardware =>
      have hhardware : versionOf ['h', 'w'] part = some (part.drop 2) := hdigits
      simp [readParts, hhardware, Parts.withVersion]
  | software =>
      have hsoftware : versionOf ['s', 'w'] part = some (part.drop 2) := hdigits
      have hhardware : versionOf ['h', 'w'] part = none := by
        rw [← Option.not_isSome_iff_eq_none]
        intro hother
        cases States.kind_eq h (states_iff.2 hother : VersionKind.hardware.States part)
      simp [readParts, hhardware, hsoftware, Parts.withVersion]

theorem readParts_name {part : List Char} (h : ∀ kind : VersionKind, ¬kind.States part)
    (parts : Parts) (rest : List (List Char)) :
    readParts parts (part :: rest) =
      if parts.hardware.isNone && parts.software.isNone && parts.names.length < 2 then
        readParts { parts with names := parts.names ++ [part] } rest
      else none := by
  have hnone (kind : VersionKind) : versionOf kind.tag part = none := by
    simpa [states_iff] using h kind
  have hhardware : versionOf ['h', 'w'] part = none := hnone .hardware
  have hsoftware : versionOf ['s', 'w'] part = none := hnone .software
  simp [readParts, hhardware, hsoftware]

theorem readParts_begun {parts : Parts} (hbegun : parts.Begun) (pieces : List (List Char)) :
    (readParts parts pieces).isSome ↔ ∀ piece ∈ pieces, ∃ kind : VersionKind, kind.States piece := by
  induction pieces generalizing parts with
  | nil => simp [readParts]
  | cons piece pieces ih =>
      rw [List.forall_mem_cons]
      by_cases hversion : ∃ kind : VersionKind, kind.States piece
      · obtain ⟨kind, hkind⟩ := hversion
        rw [readParts_withVersion hkind, ih (parts.begun_withVersion _ kind)]
        exact (and_iff_right ⟨kind, hkind⟩).symm
      · rw [readParts_name (not_exists.1 hversion)]
        simp [show (parts.hardware.isNone && parts.software.isNone) = false from hbegun, hversion]

theorem readParts_isSome_iff {parts : Parts} (hhardware : parts.hardware = none)
    (hsoftware : parts.software = none) (hroom : parts.names.length ≤ 2)
    (pieces : List (List Char)) :
    (readParts parts pieces).isSome ↔ ∃ names versions, pieces = names ++ versions ∧
      parts.names.length + names.length ≤ 2 ∧
      (∀ name ∈ names, ∀ kind : VersionKind, ¬kind.States name) ∧
      ∀ version ∈ versions, ∃ kind : VersionKind, kind.States version := by
  induction pieces generalizing parts with
  | nil =>
      simp only [readParts, Option.isSome_some, true_iff]
      exact ⟨[], [], rfl, hroom, by simp, by simp⟩
  | cons piece pieces ih =>
      by_cases hversion : ∃ kind : VersionKind, kind.States piece
      · obtain ⟨kind, hkind⟩ := hversion
        rw [readParts_withVersion hkind, readParts_begun (parts.begun_withVersion _ kind)]
        constructor
        · intro hpieces
          exact ⟨[], piece :: pieces, rfl, hroom, by simp,
            List.forall_mem_cons.2 ⟨⟨kind, hkind⟩, hpieces⟩⟩
        · rintro ⟨names, versions, hsplit, -, hnames, hversions⟩
          cases names with
          | nil =>
              obtain rfl : piece :: pieces = versions := hsplit
              exact (List.forall_mem_cons.1 hversions).2
          | cons name names =>
              obtain ⟨rfl, -⟩ := List.cons_eq_cons.1 hsplit
              exact absurd hkind (hnames piece List.mem_cons_self kind)
      · have hplain := not_exists.1 hversion
        rw [readParts_name hplain]
        by_cases hfree : parts.names.length < 2
        · simp only [hhardware, hsoftware, hfree, Option.isNone_none, decide_true, Bool.and_self,
            if_true]
          rw [ih rfl rfl (by simp; omega)]
          constructor
          · rintro ⟨names, versions, rfl, hlength, hnames, hversions⟩
            refine ⟨piece :: names, versions, rfl, ?_, List.forall_mem_cons.2 ⟨hplain, hnames⟩,
              hversions⟩
            simp only [List.length_append, List.length_cons, List.length_nil] at hlength ⊢
            omega
          · rintro ⟨names, versions, hsplit, hlength, hnames, hversions⟩
            cases names with
            | nil =>
                obtain rfl : piece :: pieces = versions := hsplit
                exact absurd (List.forall_mem_cons.1 hversions).1 hversion
            | cons name names =>
                obtain ⟨rfl, rfl⟩ := List.cons_eq_cons.1 hsplit
                refine ⟨names, versions, rfl, ?_, (List.forall_mem_cons.1 hnames).2, hversions⟩
                simp only [List.length_append, List.length_cons, List.length_nil] at hlength ⊢
                omega
        · simp only [hfree, decide_false, Bool.and_false, Bool.false_eq_true, if_false,
            Option.isSome_none, false_iff]
          rintro ⟨names, versions, hsplit, hlength, hnames, hversions⟩
          cases names with
          | nil =>
              obtain rfl : piece :: pieces = versions := hsplit
              exact hversion (List.forall_mem_cons.1 hversions).1
          | cons name names =>
              rw [List.length_cons] at hlength
              omega

theorem hexValue_isSome_iff {c : Char} : (Text.hexValue c).isSome ↔ IsHexDigit c := by
  simp only [Text.hexValue, IsHexDigit]
  split
  · simp_all
  · split
    · simp_all
    · split <;> simp_all

theorem ofHex_isSome_iff {digits : List Char} :
    (Text.ofHex digits).isSome ↔ ∀ c ∈ digits, IsHexDigit c := by
  suffices h : ∀ n, (digits.foldlM (fun n c => (Text.hexValue c).map (16 * n + ·)) n).isSome ↔
      ∀ c ∈ digits, IsHexDigit c from h 0
  induction digits with
  | nil => simp
  | cons c digits ih =>
      intro n
      rw [List.foldlM_cons, List.forall_mem_cons, ← hexValue_isSome_iff]
      cases Text.hexValue c with
      | none => simp
      | some value => simpa using ih _

theorem parse_isSome_iff_pieces (fileName : String) :
    (parse fileName).isSome ↔ ∃ zz ident rest,
      (fileName.toList.splitOn '.').dropLast = zz :: ident :: rest ∧
        (zz.length = 2 ∧ ∀ c ∈ zz, IsHexDigit c) ∧ ident ≠ [] ∧ (readParts {} rest).isSome := by
  constructor
  · intro h
    obtain ⟨device, hdevice⟩ := Option.isSome_iff_exists.1 h
    obtain ⟨zz, ident, rest, address, parts, hsplit, hform, haddress, hparts, -⟩ :=
      exists_of_parse hdevice
    exact ⟨zz, ident, rest, hsplit, ⟨hform.1, ofHex_isSome_iff.1 (by rw [haddress]; rfl)⟩,
      hform.2, by rw [hparts]; rfl⟩
  · rintro ⟨zz, ident, rest, hsplit, hzz, hident, hrest⟩
    obtain ⟨address, haddress⟩ := Option.isSome_iff_exists.1 (ofHex_isSome_iff.2 hzz.2)
    obtain ⟨parts, hparts⟩ := Option.isSome_iff_exists.1 hrest
    rw [parse, hsplit]
    simp only [if_pos (And.intro hzz.1 hident), haddress, hparts, Option.isSome_some]

theorem exists_forall₂_iff {versions : List (List Char)} :
    (∃ kinds, List.Forall₂ VersionKind.States kinds versions) ↔
      ∀ version ∈ versions, ∃ kind : VersionKind, kind.States version := by
  induction versions with
  | nil => simp
  | cons version versions ih =>
      rw [List.forall_mem_cons, ← ih]
      constructor
      · rintro ⟨kinds, hkinds⟩
        cases hkinds with
        | cons hkind hkinds => exact ⟨⟨_, hkind⟩, _, hkinds⟩
      · rintro ⟨⟨kind, hkind⟩, kinds, hkinds⟩
        exact ⟨kind :: kinds, .cons hkind hkinds⟩

def furtherParts (fileName : String) : List (List Char) :=
  ((fileName.toList.splitOn '.').dropLast).drop 2

namespace NameParts

theorem all_of_text {parts : NameParts} (h : parts.Ordered) {fileName : String}
    (htext : parts.text = fileName.toList) : fileName.toList.splitOn '.' = parts.all := by
  rw [← htext, text, List.splitOn_intercalate '.' h.separate (by simp [all])]

theorem further_of_text {parts : NameParts} (h : parts.Ordered) {fileName : String}
    (htext : parts.text = fileName.toList) :
    furtherParts fileName = parts.names ++ parts.versions := by
  rw [furtherParts, all_of_text h htext, all, List.dropLast_concat]
  rfl

end NameParts

/-- A file name is read if its parts stand in the order of the convention; a version may be stated
again and again. -/
theorem parse_isSome_iff (fileName : String) :
    (parse fileName).isSome ↔ ∃ parts : NameParts,
      parts.text = fileName.toList ∧ parts.Ordered ∧ parts.Unambiguous := by
  rw [parse_isSome_iff_pieces]
  constructor
  · rintro ⟨zz, ident, rest, hsplit, hzz, hident, hrest⟩
    obtain ⟨names, versions, rfl, hroom, hnames, hversions⟩ :=
      (readParts_isSome_iff (rfl : Parts.hardware {} = none) rfl (Nat.zero_le 2) rest).1 hrest
    obtain ⟨kinds, hkinds⟩ := exists_forall₂_iff.2 hversions
    have hne := List.splitOn_ne_nil '.' fileName.toList
    let parts : NameParts :=
      ⟨zz, ident, names, kinds, versions, (fileName.toList.splitOn '.').getLast hne⟩
    have hall : parts.all = fileName.toList.splitOn '.' := by
      rw [← List.dropLast_append_getLast hne, hsplit]
      rfl
    refine ⟨parts, ?_, ⟨?_, hzz, hident, ?_, hkinds⟩, hnames⟩
    · rw [NameParts.text, hall, List.intercalate_splitOn]
    · rw [hall]
      exact fun part hpart => (List.of_mem_splitOn hpart).1
    · simpa using hroom
  · rintro ⟨parts, htext, hordered, hnames⟩
    refine ⟨parts.zz, parts.ident, parts.names ++ parts.versions, ?_, hordered.zz, hordered.ident, ?_⟩
    · rw [NameParts.all_of_text hordered htext, NameParts.all, List.dropLast_concat]
    · refine (readParts_isSome_iff (rfl : Parts.hardware {} = none) rfl (Nat.zero_le 2) _).2
        ⟨_, _, rfl, ?_, hnames, exists_forall₂_iff.1 ⟨_, hordered.versions⟩⟩
      simpa using hordered.names

def Differ (first second : List Char) : Prop :=
  ∀ kind : VersionKind, ¬(kind.States first ∧ kind.States second)

def StatesOnce (fileName : String) : Prop := (furtherParts fileName).Pairwise Differ

theorem mem_kinds_iff {kinds : List VersionKind} {versions : List (List Char)}
    (h : List.Forall₂ VersionKind.States kinds versions) (kind : VersionKind) :
    kind ∈ kinds ↔ ∃ version ∈ versions, kind.States version := by
  induction h with
  | nil => simp
  | @cons first version kinds versions hfirst hrest ih =>
      have hkind : kind = first ↔ kind.States version :=
        ⟨fun h => h ▸ hfirst, fun h => States.kind_eq h hfirst⟩
      rw [List.mem_cons, ih, hkind]
      simp

theorem pairwise_differ_iff {kinds : List VersionKind} {versions : List (List Char)}
    (h : List.Forall₂ VersionKind.States kinds versions) :
    versions.Pairwise Differ ↔ kinds.Nodup := by
  induction h with
  | nil => simp
  | @cons kind version kinds versions hkind hrest ih =>
      rw [List.pairwise_cons, List.nodup_cons, ih, mem_kinds_iff hrest]
      refine and_congr_left fun _ => ?_
      constructor
      · rintro hdiffer ⟨other, hmem, hother⟩
        exact hdiffer other hmem kind ⟨hkind, hother⟩
      · rintro hnone other hmem repeated ⟨hversion, hother⟩
        exact hnone ⟨other, hmem, States.kind_eq hversion hkind ▸ hother⟩

theorem statesOnce_iff {parts : NameParts} (h : parts.Ordered) (hnames : parts.Unambiguous)
    {fileName : String} (htext : parts.text = fileName.toList) :
    StatesOnce fileName ↔ parts.kinds.Nodup := by
  rw [StatesOnce, NameParts.further_of_text h htext, ← pairwise_differ_iff h.versions,
    List.pairwise_append]
  have hdiffer : ∀ name ∈ parts.names, ∀ part, Differ name part :=
    fun name hname part kind hstates => hnames name hname kind hstates.1
  constructor
  · exact fun hpairs => hpairs.2.1
  · exact fun hpairs =>
      ⟨List.pairwise_of_forall_mem_list fun name hname part _ => hdiffer name hname part, hpairs,
        fun name hname part _ => hdiffer name hname part⟩

/-- Those that are read and state no kind of version twice are those that follow the convention. -/
theorem parse_isSome_iff_conventional (fileName : String) :
    (parse fileName).isSome ∧ StatesOnce fileName ↔ ∃ parts : NameParts,
      parts.text = fileName.toList ∧ parts.Conventional ∧ parts.Unambiguous := by
  rw [parse_isSome_iff]
  constructor
  · rintro ⟨⟨parts, htext, hordered, hnames⟩, honce⟩
    exact ⟨parts, htext, ⟨hordered, (statesOnce_iff hordered hnames htext).1 honce⟩, hnames⟩
  · rintro ⟨parts, htext, hconventional, hnames⟩
    have hordered := hconventional.toOrdered
    exact ⟨⟨parts, htext, hordered, hnames⟩,
      (statesOnce_iff hordered hnames htext).2 hconventional.once⟩

theorem parse_repeated_hardware :
    let fileName := "08.bai.a.b.HW0001.HW0002.csv"
    (parse fileName).isSome ∧
      ¬∃ parts : NameParts, parts.text = fileName.toList ∧ parts.Conventional := by
  intro fileName
  refine ⟨by decide +kernel, ?_⟩
  rintro ⟨parts, htext, hconventional⟩
  have hfurther := NameParts.further_of_text hconventional.toOrdered htext
  have hlast : (furtherParts fileName).drop 2 = ["HW0001".toList, "HW0002".toList] := by
    decide +kernel
  have hversions : (furtherParts fileName).drop 2 = parts.versions.drop (2 - parts.names.length) := by
    rw [hfurther, List.drop_append, List.drop_of_length_le hconventional.names, List.nil_append]
  have hdiffer : parts.versions.Pairwise Differ :=
    (pairwise_differ_iff hconventional.versions).2 hconventional.once
  have hpair := hdiffer.sublist (List.drop_sublist (2 - parts.names.length) parts.versions)
  rw [← hversions, hlast, List.pairwise_pair] at hpair
  exact hpair .hardware ⟨by decide, by decide⟩

end DeviceName

end DefinitionFiles
