import DefinitionFiles.Proofs.Columns.Pairing
import DefinitionFiles.Proofs.DeviceName.Convention
import Mathlib

namespace DefinitionFiles

theorem Record.Pairs.insert {record : Record} {names : List String} {fields : Row}
    (h : record.Pairs names fields) (hlength : names.length = fields.length) {name : String}
    (hname : name ∉ names) (field : String) :
    Record.Pairs (Std.ExtTreeMap.insert record name field) (names ++ [name]) (fields ++ [field]) := by
  intro other value
  rw [Std.ExtTreeMap.getElem?_insert, List.zip_append hlength, List.mem_append]
  by_cases he : name = other
  · subst he
    have hold : (name, value) ∉ names.zip fields := fun hmem => hname (List.of_mem_zip hmem).1
    simp [hold, eq_comm]
  · have hnew : (other, value) ∉ [name].zip [field] := by simp [Ne.symm he]
    simp only [Std.LawfulEqCmp.compare_eq_iff_eq, he, if_false, hnew, or_false]
    exact h other value

def digitValue (c : Char) : Nat := "0123456789abcdef".toList.idxOf c.toLower

def numeral (base : Nat) (digits : List Char) : Nat :=
  Nat.ofDigits base (digits.map digitValue).reverse

theorem numeral_eq_foldl (base : Nat) (digits : List Char) :
    numeral base digits = digits.foldl (fun n c => base * n + digitValue c) 0 := by
  rw [numeral, Nat.ofDigits_eq_foldr, List.foldr_reverse, List.foldl_map]
  simp only [Nat.cast_id, Nat.add_comm]

namespace DeviceName

theorem IsHexDigit.holds {c : Char} (h : IsHexDigit c) {p : Char → Bool}
    (hall : "0123456789abcdefABCDEF".toList.all p = true) : p c = true := by
  refine List.all_eq_true.1 hall c ?_
  have bounds {low high : Char} (hc : low ≤ c ∧ c ≤ high) :
      low.toNat ≤ c.toNat ∧ c.toNat ≤ high.toNat := hc
  rw [← Char.ofNat_toNat c]
  rcases h with h | h | h
  all_goals
    obtain ⟨hlow, hhigh⟩ := bounds h
    generalize c.toNat = n at hlow hhigh
    simp only [Char.reduceToNat] at hlow hhigh
    interval_cases n <;> decide

theorem hexValue_eq {c : Char} (h : IsHexDigit c) : Text.hexValue c = some (digitValue c) := by
  let p (c : Char) : Bool := Text.hexValue c = some (digitValue c)
  exact of_decide_eq_true (h.holds (show "0123456789abcdefABCDEF".toList.all p = true by decide))

theorem ofHex_eq {digits : List Char} (h : ∀ c ∈ digits, IsHexDigit c) :
    Text.ofHex digits = some (numeral 16 digits) := by
  rw [numeral_eq_foldl, Text.ofHex]
  generalize 0 = n
  induction digits generalizing n with
  | nil => rfl
  | cons c digits ih =>
      obtain ⟨hc, hdigits⟩ := List.forall_mem_cons.1 h
      rw [List.foldlM_cons, hexValue_eq hc, List.foldl_cons]
      exact ih hdigits _

theorem ofDecimal_eq {digits : List Char} (h : ∀ c ∈ digits, c.isDigit = true) :
    Text.ofDecimal digits = numeral 10 digits := by
  rw [numeral_eq_foldl, Text.ofDecimal]
  refine List.foldl_ext _ _ _ fun n c hc => ?_
  have hdigit : '0' ≤ c ∧ c ≤ '9' := by simpa [Char.isDigit, Char.le_def] using h c hc
  have hvalue := hexValue_eq (.inl hdigit)
  rw [Text.hexValue, if_pos hdigit, Option.some.injEq] at hvalue
  rw [hvalue]

theorem readParts_names {parts : Parts} (hhardware : parts.hardware = none)
    (hsoftware : parts.software = none) {names : List (List Char)}
    (hplain : ∀ name ∈ names, ∀ kind : VersionKind, ¬kind.States name)
    (hroom : parts.names.length + names.length ≤ 2) (rest : List (List Char)) :
    readParts parts (names ++ rest) =
      readParts { parts with names := parts.names ++ names } rest := by
  induction names generalizing parts with
  | nil => simp
  | cons name names ih =>
      obtain ⟨hname, hplain⟩ := List.forall_mem_cons.1 hplain
      rw [List.length_cons] at hroom
      have hfree : parts.names.length < 2 := by omega
      rw [List.cons_append, readParts_name hname, hhardware, hsoftware, if_pos (by simpa using hfree),
        ih rfl rfl hplain (by simp only [List.length_append, List.length_singleton]; omega)]
      simp

def Parts.version (parts : Parts) : VersionKind → Option (List Char)
  | .hardware => parts.hardware
  | .software => parts.software

theorem Parts.version_withVersion (parts : Parts) (digits : List Char) (kind other : VersionKind) :
    (parts.withVersion digits other).version kind =
      if other = kind then some digits else parts.version kind := by
  cases kind <;> cases other <;> rfl

@[simp] theorem Parts.names_withVersion (parts : Parts) (digits : List Char) (kind : VersionKind) :
    (parts.withVersion digits kind).names = parts.names := by
  cases kind <;> rfl

def statedDigits (versions : List (List Char)) (kind : VersionKind) : Option (List Char) :=
  (versions.find? (kind.States ·)).map (List.drop 2)

theorem statedDigits_cons {other : VersionKind} {version : List Char} (h : other.States version)
    (versions : List (List Char)) (kind : VersionKind) :
    statedDigits (version :: versions) kind =
      if other = kind then some (version.drop 2) else statedDigits versions kind := by
  have hkind : kind.States version ↔ other = kind := ⟨States.kind_eq h, fun he => he ▸ h⟩
  by_cases he : other = kind
  · simp [statedDigits, hkind, he]
  · simp [statedDigits, hkind, he]

theorem statedDigits_eq_none {kinds : List VersionKind} {versions : List (List Char)}
    (h : List.Forall₂ VersionKind.States kinds versions) {kind : VersionKind} (hkind : kind ∉ kinds) :
    statedDigits versions kind = none := by
  rw [mem_kinds_iff h] at hkind
  simpa [statedDigits] using hkind

theorem readParts_versions {kinds : List VersionKind} {versions : List (List Char)}
    (h : List.Forall₂ VersionKind.States kinds versions) (honce : kinds.Nodup) (parts : Parts) :
    ∃ found, readParts parts versions = some found ∧ found.names = parts.names ∧
      ∀ kind, found.version kind = (statedDigits versions kind).or (parts.version kind) := by
  induction h generalizing parts with
  | nil => exact ⟨parts, rfl, rfl, fun _ => rfl⟩
  | @cons other version kinds versions hversion hversions ih =>
      obtain ⟨hother, honce⟩ := List.nodup_cons.1 honce
      obtain ⟨found, hread, hnames, hfound⟩ := ih honce (parts.withVersion (version.drop 2) other)
      refine ⟨found, (readParts_withVersion hversion parts versions).trans hread,
        hnames.trans (parts.names_withVersion _ other), fun kind => ?_⟩
      rw [hfound, statedDigits_cons hversion, Parts.version_withVersion]
      -- No later version is of the kind just read, so none replaces it.
      split
      · rename_i he
        rw [statedDigits_eq_none hversions (he ▸ hother), Option.none_or, Option.some_or]
      · rfl

theorem isDigit_of_statedDigits {versions : List (List Char)} {kind : VersionKind}
    {digits : List Char} (h : statedDigits versions kind = some digits) :
    ∀ c ∈ digits, c.isDigit = true := by
  obtain ⟨version, hfind, rfl⟩ := Option.map_eq_some_iff.1 h
  have hversion : kind.States version := by simpa using List.find?_some hfind
  obtain ⟨digits, hdigits⟩ := Option.isSome_iff_exists.1 (states_iff.1 hversion)
  obtain ⟨rfl, -, -, hall⟩ := versionOf_eq_some_iff.1 hdigits
  exact hall

theorem nonEmpty?_getElem? {names : List (List Char)} (h : ∀ name ∈ names, name ≠ []) (i : Nat) :
    nonEmpty? names[i]? = names[i]? := by
  cases hname : names[i]? with
  | none => rfl
  | some name =>
      have hne : name ≠ [] := h name (List.mem_of_getElem? hname)
      simp [nonEmpty?, hne]

namespace NameParts

def digits (parts : NameParts) (kind : VersionKind) : Option (List Char) :=
  statedDigits parts.versions kind

def category (parts : NameParts) : List Char :=
  ['.'].intercalate (parts.zz.map Char.toLower ::
    [VersionKind.hardware, .software].filterMap fun kind => (parts.digits kind).map (kind.tag ++ ·))

def fields (parts : NameParts) : Row :=
  (parts.zz.map Char.toLower :: parts.ident :: parts.names.headD parts.ident ::
    parts.names.tail).map String.ofList

/-- The device is what these parts of a file name say. -/
structure Describe (parts : NameParts) (device : DeviceName) : Prop where
  address : device.address = numeral 16 parts.zz
  hardware : device.hardware = (parts.digits .hardware).map (numeral 10)
  software : device.software = (parts.digits .software).map (numeral 10)
  values : device.values.Pairs ["zz", "ident", "circuit", "suffix"] parts.fields
  category : device.category = String.ofList parts.category

variable {parts : NameParts}

theorem decimal_digits (parts : NameParts) (kind : VersionKind) :
    (parts.digits kind).map Text.ofDecimal = (parts.digits kind).map (numeral 10) :=
  Option.map_congr fun _ h => ofDecimal_eq (isDigit_of_statedDigits h)

theorem values_ofParts (hroom : parts.names.length ≤ 2) (hnames : ∀ name ∈ parts.names, name ≠ [])
    (address : Nat) {found : Parts} (hfound : found.names = parts.names) :
    (ofParts parts.zz parts.ident address found).values.Pairs ["zz", "ident", "circuit", "suffix"]
      parts.fields := by
  have hseeded (circuit : List Char) :
      Record.Pairs (Record.ofFields ["zz", "ident", "circuit"] _) ["zz", "ident", "circuit"]
        ([parts.zz.map Char.toLower, parts.ident, circuit].map String.ofList) :=
    Record.pairs_ofFields (by decide) le_rfl
  simp only [ofParts, fields, hfound, nonEmpty?_getElem? hnames]
  -- Without a suffix the fields end before its name, and what is paired is the record as seeded.
  generalize parts.names = names at hroom ⊢
  cases names with
  | nil => exact hseeded parts.ident
  | cons circuit names =>
      cases names with
      | nil => exact hseeded circuit
      | cons suffix names =>
          obtain rfl : names = [] := by simpa using hroom
          exact (hseeded circuit).insert rfl (by decide) (String.ofList suffix)

theorem category_ofParts {found : Parts} (hfound : ∀ kind, found.version kind = parts.digits kind)
    (ident : List Char) (address : Nat) :
    (ofParts parts.zz ident address found).category = String.ofList parts.category := by
  have hhardware : found.hardware = parts.digits .hardware := hfound .hardware
  have hsoftware : found.software = parts.digits .software := hfound .software
  apply String.ext
  rw [ofParts, category, hhardware, hsoftware]
  cases hh : parts.digits .hardware <;> cases hs : parts.digits .software
  all_goals simp [hh, hs, versionText, VersionKind.tag]

end NameParts

/-- A name in the convention is read as its parts. -/
theorem parse_text {parts : NameParts} (h : parts.Conventional) (hplain : parts.Unambiguous)
    (hnames : ∀ name ∈ parts.names, name ≠ []) :
    ∃ device, parse (String.ofList parts.text) = some device ∧ parts.Describe device := by
  have hsplit : (String.ofList parts.text).toList.splitOn '.' = parts.all :=
    NameParts.all_of_text h.toOrdered String.toList_ofList.symm
  have hroom : ({} : Parts).names.length + parts.names.length ≤ 2 := by simpa using h.names
  obtain ⟨found, hread, hfound, hversion⟩ := readParts_versions h.versions h.once
    { names := parts.names }
  have hrest : readParts {} (parts.names ++ parts.versions) = some found := by
    rw [readParts_names rfl rfl hplain hroom]
    exact hread
  have hdigits (kind : VersionKind) : found.version kind = parts.digits kind := by
    rw [hversion kind]
    cases kind <;> exact Option.or_none
  refine ⟨ofParts parts.zz parts.ident (numeral 16 parts.zz) found, ?_, ?_⟩
  · rw [parse, hsplit, NameParts.all, List.dropLast_concat]
    simp only [if_pos (And.intro h.zz.1 h.ident), ofHex_eq h.zz.2, hrest]
  · exact
      { address := rfl
        hardware := (congrArg _ (hdigits .hardware)).trans (parts.decimal_digits .hardware)
        software := (congrArg _ (hdigits .software)).trans (parts.decimal_digits .software)
        values := NameParts.values_ofParts h.names hnames _ hfound
        category := NameParts.category_ofParts hdigits _ _ }

theorem parse_text_versions :
    let parts : NameParts :=
      { zz := "F6".toList
        ident := "HW1234".toList
        names := ["né".toList, "2".toList]
        kinds := [.software, .hardware]
        versions := ["sw0309".toList, "Hw5103".toList]
        extension := "tsv".toList }
    parts.Conventional ∧ parts.Unambiguous ∧ (∀ name ∈ parts.names, name ≠ []) ∧
      ∃ device, parse "F6.HW1234.né.2.sw0309.Hw5103.tsv" = some device ∧ parts.Describe device ∧
        device.address = 246 ∧ device.hardware = some 5103 ∧ device.software = some 309 ∧
        device.category = "f6.hw5103.sw0309" ∧ device.values["ident"]? = some "HW1234" ∧
        device.values["circuit"]? = some "né" ∧ device.values["suffix"]? = some "2" := by
  intro parts
  have hconventional : parts.Conventional :=
    { separate := by decide +kernel
      zz := ⟨rfl, by simp [parts, IsHexDigit]⟩
      ident := by decide
      names := le_rfl
      versions := .cons (by decide) (.cons (by decide) .nil)
      once := by decide }
  have hplain : parts.Unambiguous := by
    intro name hname kind
    cases kind <;> revert name <;> decide +kernel
  have hnames : ∀ name ∈ parts.names, name ≠ [] := by decide
  obtain ⟨device, hparse, hdevice⟩ := parse_text hconventional hplain hnames
  have htext : String.ofList parts.text = "F6.HW1234.né.2.sw0309.Hw5103.tsv" := by decide +kernel
  have hhardware : (parts.digits .hardware).map (numeral 10) = some 5103 := by decide +kernel
  have hsoftware : (parts.digits .software).map (numeral 10) = some 309 := by decide +kernel
  have hcategory : String.ofList parts.category = "f6.hw5103.sw0309" := by decide +kernel
  have hfields : parts.fields = ["f6", "HW1234", "né", "2"] := by decide +kernel
  have hvalues := hdevice.values
  rw [hfields] at hvalues
  refine ⟨hconventional, hplain, hnames, device, htext ▸ hparse, hdevice,
    hdevice.address.trans (by decide), hdevice.hardware.trans hhardware,
    hdevice.software.trans hsoftware, hdevice.category.trans hcategory, ?_⟩
  exact ⟨(hvalues _ _).2 (by simp), (hvalues _ _).2 (by simp), (hvalues _ _).2 (by simp)⟩

end DeviceName

end DefinitionFiles
