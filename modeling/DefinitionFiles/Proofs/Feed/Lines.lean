import DefinitionFiles.Feed

namespace DefinitionFiles

namespace Text

theorem encodeUtf8_eq_flatMap (text : String) :
    encodeUtf8 text = text.toList.flatMap String.utf8EncodeChar := by
  rw [encodeUtf8, ← String.utf8Encode_toList, List.utf8Encode]
  simp

theorem encodeUtf8_append (text more : String) :
    encodeUtf8 (text ++ more) = encodeUtf8 text ++ encodeUtf8 more := by
  simp [encodeUtf8_eq_flatMap]

theorem encodeUtf8_push_lineFeed (text : String) :
    encodeUtf8 (text.push '\n') = encodeUtf8 text ++ [lineFeed] := by
  simp [encodeUtf8_eq_flatMap]
  rfl

theorem eq_of_mem_utf8EncodeChar {c d : Char} (hd : d.val.toNat < 0x80)
    (h : UInt8.ofNat d.val.toNat ∈ String.utf8EncodeChar c) : c = d := by
  have hbyte : ∀ n : Nat, UInt8.ofNat d.val.toNat = UInt8.ofNat n →
      n % 256 = d.val.toNat := by
    intro n hn
    have ht := congrArg UInt8.toNat hn
    simp only [UInt8.toNat_ofNat'] at ht
    omega
  have hv : c.val.toNat = d.val.toNat := by
    simp only [String.utf8EncodeChar] at h
    split at h
    · have := hbyte _ (List.mem_singleton.1 h)
      omega
    · split at h
      · simp only [List.mem_cons, List.not_mem_nil, or_false] at h
        rcases h with h | h <;> have := hbyte _ h <;> omega
      · split at h
        · simp only [List.mem_cons, List.not_mem_nil, or_false] at h
          rcases h with h | h | h <;> have := hbyte _ h <;> omega
        · simp only [List.mem_cons, List.not_mem_nil, or_false] at h
          rcases h with h | h | h | h <;> have := hbyte _ h <;> omega
  exact Char.ext (UInt32.toNat_inj.1 hv)

theorem byte_not_mem_encodeUtf8 {d : Char} (hd : d.val.toNat < 0x80) {text : String}
    (h : d ∉ text.toList) : UInt8.ofNat d.val.toNat ∉ encodeUtf8 text := by
  rw [encodeUtf8_eq_flatMap, List.mem_flatMap]
  rintro ⟨c, hc, hm⟩
  rw [eq_of_mem_utf8EncodeChar hd hm] at hc
  exact h hc

theorem lineFeed_not_mem_encodeUtf8 {text : String} (h : '\n' ∉ text.toList) :
    lineFeed ∉ encodeUtf8 text :=
  byte_not_mem_encodeUtf8 (d := '\n') (by decide) h

theorem getLast?_of_encodeUtf8 {text : String} {d : Char} (hd : d.val.toNat < 0x80)
    (h : (encodeUtf8 text).getLast? = some (UInt8.ofNat d.val.toNat)) :
    text.toList.getLast? = some d := by
  rw [encodeUtf8_eq_flatMap] at h
  rcases List.eq_nil_or_concat text.toList with hn | ⟨before, c, hc⟩
  · simp [hn] at h
  · obtain ⟨last, hlast⟩ := Option.ne_none_iff_exists'.1
      (mt List.getLast?_eq_none_iff.1 (String.utf8EncodeChar_ne_nil (c := c)))
    have he : last = UInt8.ofNat d.val.toNat := by
      simpa [hc, List.getLast?_append, hlast] using h
    have hm : UInt8.ofNat d.val.toNat ∈ String.utf8EncodeChar c := he ▸ List.mem_of_getLast? hlast
    rw [hc, eq_of_mem_utf8EncodeChar hd hm]
    simp

end Text

theorem contentLength_lineFeed_le (bytes : List UInt8) :
    contentLength (bytes ++ [lineFeed]) ≤ bytes.length := by
  simp only [contentLength, List.reverse_append, List.reverse_singleton, List.singleton_append,
    if_true, List.length_reverse]
  split <;> omega

theorem contentLength_of_not_mem {bytes : List UInt8} (h : lineFeed ∉ bytes) :
    contentLength bytes = bytes.length := by
  cases hr : bytes.reverse with
  | nil => simp [List.reverse_eq_nil_iff.1 hr, contentLength]
  | cons last before =>
      have hl : last ≠ lineFeed := by
        rintro rfl
        exact h (List.mem_reverse.1 (hr ▸ List.mem_cons_self))
      simp [contentLength, hr, hl]

namespace Feed

theorem readsFrom_taken (length : Nat) (line : List UInt8) (h : lineFeed ∉ line)
    (taken : List UInt8) (room : Nat) (hroom : line.length < room) (rest : Feed) :
    readsFrom length #[] taken room (ofBytes line ++ rest) =
      readsFrom length #[] (line.reverse ++ taken) (room - line.length) rest := by
  induction line generalizing taken room with
  | nil => simp [ofBytes]
  | cons byte line ih =>
      have hb : byte ≠ lineFeed := fun he => h (by simp [he])
      have hl : lineFeed ∉ line := fun hm => h (List.mem_cons_of_mem byte hm)
      rw [List.length_cons] at hroom
      have hi := ih hl (byte :: taken) (room - 1) (by omega)
      simp only [ofBytes, List.map_cons, List.cons_append, readsFrom,
        if_neg (not_or.2 ⟨hb, show ¬room ≤ 1 by omega⟩)] at hi ⊢
      rw [hi, List.reverse_cons, List.append_assoc, List.singleton_append, List.length_cons,
        Nat.sub_sub, Nat.add_comm 1]

/-- A line that leaves room for its line feed is read as one, and reading goes on
behind it. -/
theorem reads_line {length : Nat} {line : List UInt8} (h : lineFeed ∉ line)
    (hlength : line.length < length) (rest : Feed) :
    reads length (ofBytes (line ++ [lineFeed]) ++ rest) =
      .line (line ++ [lineFeed]) :: reads length rest := by
  have hfeed : ofBytes (line ++ [lineFeed]) ++ rest = ofBytes line ++ .byte lineFeed :: rest := by
    simp [ofBytes]
  rw [reads, hfeed, readsFrom_taken length line h [] length hlength, readsFrom, if_pos (.inl rfl),
    readsFrom_toList]
  simp [reads]

end Feed

end DefinitionFiles
