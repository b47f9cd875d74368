import DefinitionFiles.Proofs.DeviceName.Parts
import Mathlib

namespace DefinitionFiles

namespace DeviceName

theorem toLower_mem {c : Char} (h : IsHexDigit c) : c.toLower ∈ "0123456789abcdef".toList := by
  let p (c : Char) : Bool := c.toLower ∈ "0123456789abcdef".toList
  exact of_decide_eq_true (h.holds (show "0123456789abcdefABCDEF".toList.all p = true by decide))

theorem digitValue_lt {c : Char} (h : IsHexDigit c) : digitValue c < 16 :=
  List.idxOf_lt_length_of_mem (toLower_mem h)

theorem isHexDigit_of_isDigit {c : Char} (h : c.isDigit = true) : IsHexDigit c :=
  .inl (by simpa [Char.isDigit, Char.le_def] using h)

theorem decimal_of_isDigit {c : Char} (h : c.isDigit = true) :
    c.toLower = c ∧ digitValue c < 10 := by
  let p (c : Char) : Bool := c.isDigit = true → c.toLower = c ∧ digitValue c < 10
  have hp := (isHexDigit_of_isDigit h).holds
    (show "0123456789abcdefABCDEF".toList.all p = true by decide)
  exact of_decide_eq_true hp h

theorem numeral_inj {base : Nat} (hbase : 1 < base) {first second : List Char}
    (hlength : first.length = second.length)
    (hfirst : ∀ c ∈ first, IsHexDigit c ∧ digitValue c < base)
    (hsecond : ∀ c ∈ second, IsHexDigit c ∧ digitValue c < base) :
    numeral base first = numeral base second ↔
      first.map Char.toLower = second.map Char.toLower := by
  have hvalues (digits : List Char) :
      digits.map digitValue = (digits.map Char.toLower).map "0123456789abcdef".toList.idxOf := by
    rw [List.map_map]
    rfl
  have hread {digits : List Char} (h : ∀ c ∈ digits, IsHexDigit c ∧ digitValue c < base) :
      (digits.map digitValue).map ("0123456789abcdef".toList[·]?) =
        (digits.map Char.toLower).map some := by
    rw [List.map_map, List.map_map]
    exact List.map_congr_left fun c hc => List.getElem?_idxOf (toLower_mem (h c hc).1)
  have hbound {digits : List Char} (h : ∀ c ∈ digits, IsHexDigit c ∧ digitValue c < base) :
      ∀ value ∈ (digits.map digitValue).reverse, value < base := by
    simpa using fun c hc => (h c hc).2
  constructor
  · intro h
    have hreversed := Nat.ofDigits_inj_of_len_eq hbase (by simpa using hlength) (hbound hfirst)
      (hbound hsecond) h
    have hsame : first.map digitValue = second.map digitValue := List.reverse_injective hreversed
    refine List.map_injective_iff.2 (Option.some_injective Char) ?_
    rw [← hread hfirst, ← hread hsecond, hsame]
  · intro h
    rw [numeral, numeral, hvalues, hvalues, h]

def FourDigits (digits : List Char) : Prop := digits.length = 4 ∧ ∀ c ∈ digits, c.isDigit = true

theorem ofDecimal_inj {first second : List Char} (hfirst : FourDigits first)
    (hsecond : FourDigits second) :
    Text.ofDecimal first = Text.ofDecimal second ↔ first = second := by
  have hdecimal {digits : List Char} (h : FourDigits digits) :
      ∀ c ∈ digits, IsHexDigit c ∧ digitValue c < 10 :=
    fun c hc => ⟨isHexDigit_of_isDigit (h.2 c hc), (decimal_of_isDigit (h.2 c hc)).2⟩
  have hlower {digits : List Char} (h : FourDigits digits) : digits.map Char.toLower = digits := by
    rw [List.map_congr_left fun c hc => (decimal_of_isDigit (h.2 c hc)).1, List.map_id']
  rw [ofDecimal_eq hfirst.2, ofDecimal_eq hsecond.2,
    numeral_inj (by decide) (hfirst.1.trans hsecond.1.symm) (hdecimal hfirst) (hdecimal hsecond),
    hlower hfirst, hlower hsecond]

def Parts.Versioned (parts : Parts) : Prop :=
  ∀ kind, ∀ digits ∈ parts.version kind, FourDigits digits

theorem Parts.Versioned.withVersion {parts : Parts} (h : parts.Versioned) {digits : List Char}
    (hdigits : FourDigits digits) (kind : VersionKind) : (parts.withVersion digits kind).Versioned := by
  intro other found hfound
  rw [Parts.version_withVersion] at hfound
  split at hfound
  · obtain rfl : digits = found := Option.some.inj hfound
    exact hdigits
  · exact h other found hfound

theorem versioned_of_readParts {parts found : Parts} {pieces : List (List Char)}
    (h : readParts parts pieces = some found) (hparts : parts.Versioned) : found.Versioned := by
  induction pieces generalizing parts with
  | nil =>
      obtain rfl : parts = found := by simpa [readParts] using h
      exact hparts
  | cons piece pieces ih =>
      by_cases hversion : ∃ kind : VersionKind, kind.States piece
      · obtain ⟨kind, hkind⟩ := hversion
        obtain ⟨digits, hdigits⟩ := Option.isSome_iff_exists.1 (states_iff.1 hkind)
        obtain ⟨rfl, -, hfour⟩ := versionOf_eq_some_iff.1 hdigits
        rw [readParts_withVersion hkind] at h
        exact ih h (hparts.withVersion hfour kind)
      · rw [readParts_name (not_exists.1 hversion)] at h
        split at h
        · exact ih h hparts
        · cases h

theorem toList_versionText (tag : String) (digits : Option (List Char)) :
    (versionText tag digits).toList = (digits.map (tag.toList ++ ·)).getD [] := by
  cases digits <;> simp [versionText]

/-- A version is told from what follows it, if that cannot be taken for a version. -/
theorem versionText_append_inj (tag : String) {first second : Option (List Char)}
    {rest more : List Char} (hfirst : ∀ digits ∈ first, FourDigits digits)
    (hsecond : ∀ digits ∈ second, FourDigits digits) (hrest : ¬tag.toList <+: rest)
    (hmore : ¬tag.toList <+: more) :
    (versionText tag first).toList ++ rest = (versionText tag second).toList ++ more ↔
      first = second ∧ rest = more := by
  refine ⟨fun h => ?_, fun ⟨hversion, hrest⟩ => by rw [hversion, hrest]⟩
  rw [toList_versionText, toList_versionText] at h
  cases first with
  | none =>
      cases second with
      | none => exact ⟨rfl, h⟩
      | some digits => exact absurd ⟨digits ++ more, by simpa using h.symm⟩ hrest
  | some digits =>
      cases second with
      | none => exact absurd ⟨digits ++ rest, by simpa using h⟩ hmore
      | some other =>
          have hlength : digits.length = other.length :=
            (hfirst digits rfl).1.trans (hsecond other rfl).1.symm
          have hdigits : digits ++ rest = other ++ more := by simpa using h
          obtain ⟨rfl, hrest⟩ := List.append_inj hdigits hlength
          exact ⟨rfl, hrest⟩

theorem category_ofParts_inj {zz zz' ident ident' : List Char} {address address' : Nat}
    {parts other : Parts} (hzz : zz.length = zz'.length) (hparts : parts.Versioned)
    (hother : other.Versioned) :
    (ofParts zz ident address parts).category = (ofParts zz' ident' address' other).category ↔
      zz.map Char.toLower = zz'.map Char.toLower ∧ parts.hardware = other.hardware ∧
        parts.software = other.software := by
  have hnone (digits : Option (List Char)) : ¬".hw".toList <+: (versionText ".sw" digits).toList := by
    rw [toList_versionText]
    cases digits <;> simp
  have hhardware := versionText_append_inj ".hw" (hparts .hardware) (hother .hardware)
    (hnone parts.software) (hnone other.software)
  have hempty : ¬".sw".toList <+: [] := by decide
  have hsoftware := versionText_append_inj ".sw" (hparts .software) (hother .software) hempty hempty
  rw [List.append_nil, List.append_nil] at hsoftware
  rw [← String.toList_inj]
  simp only [ofParts, String.toList_append, String.toList_ofList, List.append_assoc]
  constructor
  · intro h
    obtain ⟨haddress, hversions⟩ := List.append_inj h (by simpa using hzz)
    obtain ⟨hsame, hrest⟩ := hhardware.1 hversions
    exact ⟨haddress, hsame, (hsoftware.1 hrest).1⟩
  · rintro ⟨haddress, hsame, hsame'⟩
    rw [haddress, hsame, hsame']

/-- Names of one device in one version, however they are spelled. -/
def SameVersion (device other : DeviceName) : Prop :=
  device.address = other.address ∧ device.hardware = other.hardware ∧
    device.software = other.software

theorem map_ofDecimal_inj {first second : Option (List Char)}
    (hfirst : ∀ digits ∈ first, FourDigits digits)
    (hsecond : ∀ digits ∈ second, FourDigits digits) :
    first.map Text.ofDecimal = second.map Text.ofDecimal ↔ first = second := by
  cases first with
  | none => cases second <;> simp
  | some digits =>
      cases second with
      | none => simp
      | some other => simpa using ofDecimal_inj (hfirst digits rfl) (hsecond other rfl)

theorem category_eq_iff_sameVersion {fileName otherName : String} {device other : DeviceName}
    (h : parse fileName = some device) (h' : parse otherName = some other) :
    device.category = other.category ↔ device.SameVersion other := by
  obtain ⟨zz, ident, _, address, parts, -, ⟨hzz, -⟩, haddress, hparts, rfl⟩ := exists_of_parse h
  obtain ⟨zz', ident', _, address', parts', -, ⟨hzz', -⟩, haddress', hparts', rfl⟩ :=
    exists_of_parse h'
  have hnone : Parts.Versioned {} := fun kind => by cases kind <;> simp [Parts.version]
  have hversioned := versioned_of_readParts hparts hnone
  have hversioned' := versioned_of_readParts hparts' hnone
  have hhex {zz : List Char} {address : Nat} (h : Text.ofHex zz = some address) :
      address = numeral 16 zz ∧ ∀ c ∈ zz, IsHexDigit c ∧ digitValue c < 16 := by
    have hdigits : ∀ c ∈ zz, IsHexDigit c := ofHex_isSome_iff.1 (by rw [h]; rfl)
    rw [ofHex_eq hdigits, Option.some.injEq] at h
    exact ⟨h.symm, fun c hc => ⟨hdigits c hc, digitValue_lt (hdigits c hc)⟩⟩
  obtain ⟨rfl, hdigits⟩ := hhex haddress
  obtain ⟨rfl, hdigits'⟩ := hhex haddress'
  have hlength := hzz.trans hzz'.symm
  have haddresses : numeral 16 zz = numeral 16 zz' ↔ zz.map Char.toLower = zz'.map Char.toLower :=
    numeral_inj (by decide) hlength hdigits hdigits'
  have hhardware := map_ofDecimal_inj (hversioned .hardware) (hversioned' .hardware)
  have hsoftware := map_ofDecimal_inj (hversioned .software) (hversioned' .software)
  rw [category_ofParts_inj hlength hversioned hversioned']
  exact (and_congr haddresses (and_congr hhardware hsoftware)).symm

end DeviceName

namespace Handler

variable {η : Type} {handler : Handler η} {config : MappingConfig}

/-- Devices are read from the names of files, and rows keyed as they usually are. -/
structure KeysByName (handler : Handler η) : Prop where
  device : ∀ name own, handler.deviceName name own = DeviceName.parse name
  category : ∀ record ctx own, handler.category record ctx own = ctx.usualCategory record

theorem start_device (handler : Handler η) (source : String) (options : SourceOptions)
    (state : MappingState η) :
    (handler.start source options state).session.device =
      handler.deviceName ((Path.fileName? source).getD source) state.handler := by
  simp only [start, MappingState.call]
  cases handler.deviceName ((Path.fileName? source).getD source) state.handler <;> rfl

/-- A row that comes up while a source with this file name is read, and states no category. -/
def FindsUnstated (handler : Handler η) (config : MappingConfig) (fileName : String)
    (row : Arrival η) : Prop :=
  ∃ limits source options feed state, (Path.fileName? source).getD source = fileName ∧
    row ∈ handler.arrivals config (readScript limits source options feed) state ∧
      ((row.parts config).main.fill row.context.fileDefaults).value typeColumn = ""

theorem FindsUnstated.category {fileName : String} {row : Arrival η}
    (h : handler.FindsUnstated config fileName row) (hkeys : handler.KeysByName)
    {device : DeviceName} (hdevice : DeviceName.parse fileName = some device) :
    (handler.registration config row).category = device.category := by
  obtain ⟨limits, source, options, feed, state, rfl, hrow, hunstated⟩ := h
  obtain ⟨columns, held, hsession⟩ := session_of_script hrow
  have hseeded : row.context.device = some device := by
    calc row.context.device
        = row.state.session.device := rfl
      _ = (handler.start source options state).session.device := by rw [hsession]
      _ = some device := by rw [start_device, hkeys.device, hdevice]
  have hcategory : (handler.registration config row).category =
      row.context.usualCategory ((row.parts config).main.fill row.context.fileDefaults) :=
    hkeys.category _ _ _
  rw [hcategory, RecordContext.usualCategory, hunstated, hseeded]
  rfl

def named : Handler Unit where
  takeRecord _ _ _ _ := (.ok (), ())
  deviceName name _ := DeviceName.parse name

theorem named_keysByName : named.KeysByName := ⟨fun _ _ => rfl, fun _ _ _ => rfl⟩

end Handler

namespace DeviceName

/-- Categories are the same for names of one device in one version, and for no others. So are those
of rows that are keyed by the name of their file. -/
theorem category_eq_iff {fileName otherName : String} {device other : DeviceName}
    (h : parse fileName = some device) (h' : parse otherName = some other) :
    (device.category = other.category ↔ device.SameVersion other) ∧
      ∀ (η : Type) (handler : Handler η) (config : MappingConfig) (row otherRow : Arrival η),
        handler.KeysByName → handler.FindsUnstated config fileName row →
          handler.FindsUnstated config otherName otherRow →
            ((handler.registration config row).category =
              (handler.registration config otherRow).category ↔ device.SameVersion other) := by
  have hcategories := category_eq_iff_sameVersion h h'
  refine ⟨hcategories, fun η handler config row otherRow hkeys hrow hother => ?_⟩
  rw [hrow.category hkeys h, hother.category hkeys h', hcategories]

theorem category_eq_iff_spelled :
    let feed : Feed := .ofText "type,v\n*,9\n"
    let rows := fun source : String => Handler.named.arrivals .takingDefaults
      (readScript {} source {} feed) { handler := () }
    ∃ device other row otherRow,
      parse "F6.bai.HW0102.sw0030.csv" = some device ∧
      parse "f6.ehp.hmu.2.SW0030.hw0102.tsv" = some other ∧
      row ∈ rows "a/F6.bai.HW0102.sw0030.csv" ∧
      otherRow ∈ rows "b/f6.ehp.hmu.2.SW0030.hw0102.tsv" ∧
      device.SameVersion other ∧ device.category = "f6.hw0102.sw0030" ∧
      (Handler.named.registration .takingDefaults row).category =
        (Handler.named.registration .takingDefaults otherRow).category := by
  intro feed rows
  have hrow (source fileName : String) (hname : (Path.fileName? source).getD source = fileName)
      (h : (rows source).any (fun row => decide (((row.parts .takingDefaults).main.fill
        row.context.fileDefaults).value typeColumn = "")) = true) :
      ∃ row ∈ rows source, Handler.named.FindsUnstated .takingDefaults fileName row := by
    obtain ⟨row, hrow, hvalue⟩ := List.any_eq_true.1 h
    exact ⟨row, hrow, {}, source, {}, feed, { handler := () }, hname, hrow, of_decide_eq_true hvalue⟩
  obtain ⟨row, hmem, hunstated⟩ := hrow "a/F6.bai.HW0102.sw0030.csv" "F6.bai.HW0102.sw0030.csv"
    (by decide +kernel) (by decide +kernel)
  obtain ⟨otherRow, hother, hunstated'⟩ := hrow "b/f6.ehp.hmu.2.SW0030.hw0102.tsv"
    "f6.ehp.hmu.2.SW0030.hw0102.tsv" (by decide +kernel) (by decide +kernel)
  have hread (fileName : String)
      (h : (parse fileName).any (fun device => device.category == "f6.hw0102.sw0030") = true) :
      ∃ device, parse fileName = some device ∧ device.category = "f6.hw0102.sw0030" := by
    simpa using (Option.any_eq_true _ _).1 h
  obtain ⟨device, hdevice, hcategory⟩ := hread "F6.bai.HW0102.sw0030.csv" (by decide +kernel)
  obtain ⟨other, hdevice', hcategory'⟩ :=
    hread "f6.ehp.hmu.2.SW0030.hw0102.tsv" (by decide +kernel)
  obtain ⟨hsame, hkeyed⟩ := category_eq_iff hdevice hdevice'
  have hversion : device.SameVersion other := hsame.1 (hcategory.trans hcategory'.symm)
  exact ⟨device, other, row, otherRow, hdevice, hdevice', hmem, hother, hversion, hcategory,
    (hkeyed Unit .named .takingDefaults row otherRow Handler.named_keysByName hunstated
      hunstated').2 hversion⟩

end DeviceName

end DefinitionFiles
