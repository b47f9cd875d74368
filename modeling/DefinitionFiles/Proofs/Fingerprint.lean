import DefinitionFiles.Fingerprint
import Mathlib

namespace DefinitionFiles

namespace Text

theorem digitChar_inj {n m : Nat} (hn : n < 16) (hm : m < 16) :
    Nat.digitChar n = Nat.digitChar m ↔ n = m := by
  have hall : ∀ n m : Fin 16, Nat.digitChar n = Nat.digitChar m ↔ n = m := by decide
  simpa using hall ⟨n, hn⟩ ⟨m, hm⟩

theorem hexDigits_eq_iff {width n m : Nat} :
    hexDigits width n = hexDigits width m ↔ n % 16 ^ width = m % 16 ^ width := by
  induction width generalizing n m with
  | zero => simp [hexDigits, Nat.mod_one]
  | succ width ih =>
      have hlast : Nat.digitChar (n % 16) = Nat.digitChar (m % 16) ↔ n % 16 = m % 16 :=
        digitChar_inj (Nat.mod_lt n (by decide)) (Nat.mod_lt m (by decide))
      rw [hexDigits, hexDigits, List.append_singleton_inj, ih, hlast, pow_succ', Nat.mod_mul,
        Nat.mod_mul]
      omega

end Text

namespace Fingerprint

theorem display_eq_iff {fingerprint other : Fingerprint} :
    fingerprint.display = other.display ↔
      fingerprint.hash.toUInt32 = other.hash.toUInt32 := by
  rw [display, display, Text.hex, Text.hex, String.ofList_inj, Text.hexDigits_eq_iff,
    ← UInt32.toNat_inj, UInt64.toNat_toUInt32, UInt64.toNat_toUInt32]
  rfl

def lowStep (digest : UInt32) (byte : UInt8) : UInt32 := (digest ^^^ byte.toUInt32) * 0x1b3

/-- The multiplier is odd, so it has an inverse. -/
theorem mul_multiplier_inj {first second : UInt32} :
    first * 0x1b3 = second * 0x1b3 ↔ first = second := by
  refine ⟨fun h => ?_, fun h => by rw [h]⟩
  have hinverse : (0x1b3 : UInt32) * 2952172923 = 1 := by decide
  have hproduct := congrArg (· * 2952172923) h
  simpa only [UInt32.mul_assoc, hinverse, UInt32.mul_one] using hproduct

theorem lowStep_inj_digest {first second : UInt32} {byte : UInt8} :
    lowStep first byte = lowStep second byte ↔ first = second := by
  rw [lowStep, lowStep, mul_multiplier_inj, UInt32.xor_left_inj]

theorem lowStep_inj_byte {digest : UInt32} {byte other : UInt8} :
    lowStep digest byte = lowStep digest other ↔ byte = other := by
  rw [lowStep, lowStep, mul_multiplier_inj, UInt32.xor_right_inj, UInt8.toUInt32_inj]

theorem foldl_lowStep_inj {first second : UInt32} (bytes : List UInt8) :
    bytes.foldl lowStep first = bytes.foldl lowStep second ↔ first = second := by
  induction bytes generalizing first second with
  | nil => rfl
  | cons byte bytes ih => rw [List.foldl_cons, List.foldl_cons, ih, lowStep_inj_digest]

theorem toUInt32_lineDigest (bytes : List UInt8) :
    (lineDigest bytes).toUInt32 = bytes.foldl lowStep 0x84222325 := by
  have hstep (digest : UInt64) (byte : UInt8) :
      lowStep digest.toUInt32 byte = ((digest ^^^ byte.toUInt64) * 0x100000001b3).toUInt32 := by
    rw [UInt64.toUInt32_mul, UInt64.toUInt32_xor, UInt8.toUInt32_toUInt64]
    rfl
  exact (List.foldl_hom UInt64.toUInt32 hstep).symm

theorem toUInt32_mix_inj {hash value other : UInt64} :
    (mix hash value).toUInt32 = (mix hash other).toUInt32 ↔ value.toUInt32 = other.toUInt32 := by
  simp only [mix, UInt64.toUInt32_xor, UInt64.toUInt32_add, UInt32.xor_right_inj,
    UInt32.add_left_inj]

/-- Lines of one length in bytes that differ in just one place. -/
structure DifferOnce (first second : List UInt8) : Prop where
  length : first.length = second.length
  place : ∃! i : Nat, first[i]? ≠ second[i]?

theorem differOnce_iff {first second : List UInt8} :
    DifferOnce first second ↔ ∃ before after byte byte',
      first = before ++ byte :: after ∧ second = before ++ byte' :: after ∧ byte ≠ byte' := by
  constructor
  · rintro ⟨hlength, i, hi, honly⟩
    have hsame (j : Nat) (hj : j ≠ i) : first[j]? = second[j]? := by
      by_contra hne
      exact hj (honly j hne)
    have hfirst : i < first.length := by
      by_contra hout
      exact hi (by rw [List.getElem?_eq_none (by omega), List.getElem?_eq_none (by omega)])
    have hsecond : i < second.length := hlength ▸ hfirst
    have hbefore : first.take i = second.take i := by
      refine List.ext_getElem? fun j => ?_
      rw [List.getElem?_take, List.getElem?_take]
      split
      · exact hsame j (by omega)
      · rfl
    have hafter : first.drop (i + 1) = second.drop (i + 1) := by
      refine List.ext_getElem? fun j => ?_
      rw [List.getElem?_drop, List.getElem?_drop]
      exact hsame _ (by omega)
    refine ⟨first.take i, first.drop (i + 1), first[i], second[i], ?_, ?_, ?_⟩
    · rw [← List.drop_eq_getElem_cons hfirst, List.take_append_drop]
    · rw [hbefore, hafter, ← List.drop_eq_getElem_cons hsecond, List.take_append_drop]
    · rw [List.getElem?_eq_getElem hfirst, List.getElem?_eq_getElem hsecond] at hi
      exact fun he => hi (congrArg some he)
  · rintro ⟨before, after, byte, byte', rfl, rfl, hne⟩
    refine ⟨by simp, before.length, by simpa using hne, fun j hj => ?_⟩
    by_contra hout
    refine hj ?_
    rcases Nat.lt_or_gt_of_ne hout with hlt | hgt
    · rw [List.getElem?_append_left hlt, List.getElem?_append_left hlt]
    · obtain ⟨k, rfl⟩ := Nat.exists_eq_add_of_lt hgt
      simp [List.getElem?_append_right, Nat.add_assoc]

theorem toUInt32_lineDigest_ne {first second : List UInt8} (h : DifferOnce first second) :
    (lineDigest first).toUInt32 ≠ (lineDigest second).toUInt32 := by
  obtain ⟨before, after, byte, byte', rfl, rfl, hne⟩ := differOnce_iff.1 h
  rw [toUInt32_lineDigest, toUInt32_lineDigest, List.foldl_append, List.foldl_append,
    List.foldl_cons, List.foldl_cons]
  rwa [Ne, foldl_lowStep_inj, lowStep_inj_byte]

/-- Another byte in one place of a line shows in the fingerprint as displayed, as it changes the
low half of the hash; the size stays the same. -/
theorem display_add_ne (fingerprint : Fingerprint) {line other : String}
    (h : DifferOnce (Text.encodeUtf8 line) (Text.encodeUtf8 other)) :
    (fingerprint.add line).size = (fingerprint.add other).size ∧
      (fingerprint.add line).hash.toNat % 2 ^ 32 ≠ (fingerprint.add other).hash.toNat % 2 ^ 32 ∧
      (fingerprint.add line).display ≠ (fingerprint.add other).display := by
  have hlow : (fingerprint.add line).hash.toUInt32 ≠ (fingerprint.add other).hash.toUInt32 := by
    rw [add, add, addBytes, addBytes, Ne, toUInt32_mix_inj]
    exact toUInt32_lineDigest_ne h
  refine ⟨?_, ?_, ?_⟩
  · rw [add, add, addBytes, addBytes, h.length]
  · rwa [← UInt64.toNat_toUInt32, ← UInt64.toNat_toUInt32, Ne, UInt32.toNat_inj]
  · rwa [Ne, display_eq_iff]

theorem display_add_ne_letter :
    let fingerprint := ({} : Fingerprint).add "type,id" |>.add "r,,temp"
    DifferOnce (Text.encodeUtf8 "w,né,1") (Text.encodeUtf8 "w,nè,1") ∧
      (fingerprint.add "w,né,1").size = 24 ∧ (fingerprint.add "w,nè,1").size = 24 ∧
      (fingerprint.add "w,né,1").display ≠ (fingerprint.add "w,nè,1").display := by
  intro fingerprint
  have hdiffer : DifferOnce (Text.encodeUtf8 "w,né,1") (Text.encodeUtf8 "w,nè,1") :=
    differOnce_iff.2 ⟨[119, 44, 110, 195], [44, 49], 169, 168, by decide +kernel, by decide +kernel,
      by decide⟩
  obtain ⟨hsize, -, hdisplay⟩ := display_add_ne fingerprint hdiffer
  have hfirst : (fingerprint.add "w,né,1").size = 24 := by decide +kernel
  exact ⟨hdiffer, hfirst, hsize ▸ hfirst, hdisplay⟩

end Fingerprint

end DefinitionFiles
