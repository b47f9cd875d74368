namespace DefinitionFiles.Text

/-- Where a byte sequence stops being UTF-8. The span counts the bytes that begin
a sequence which cannot be completed; it is absent if the bytes end inside a
sequence that still could be. -/
structure Utf8Fault where
  index : Nat
  span : Option Nat
deriving DecidableEq, Repr

def Utf8Fault.message : Utf8Fault → String
  | ⟨index, some span⟩ => s!"invalid utf-8 sequence of {span} bytes from index {index}"
  | ⟨index, none⟩ => s!"incomplete utf-8 byte sequence from index {index}"

structure ByteRange where
  low : UInt8
  high : UInt8

def ByteRange.holds (range : ByteRange) (byte : UInt8) : Bool :=
  range.low ≤ byte && byte ≤ range.high

def continuation : ByteRange := ⟨0x80, 0xBF⟩

/-- The ranges of the bytes that follow a lead byte in a well-formed sequence;
no byte sequence begins with any other byte. -/
def followers (lead : UInt8) : Option (List ByteRange) :=
  if lead < 0x80 then some []
  else if lead < 0xC2 then none
  else if lead < 0xE0 then some [continuation]
  else if lead = 0xE0 then some [⟨0xA0, 0xBF⟩, continuation]
  else if lead = 0xED then some [⟨0x80, 0x9F⟩, continuation]
  else if lead < 0xF0 then some [continuation, continuation]
  else if lead = 0xF0 then some [⟨0x90, 0xBF⟩, continuation, continuation]
  else if lead < 0xF4 then some [continuation, continuation, continuation]
  else if lead = 0xF4 then some [⟨0x80, 0x8F⟩, continuation, continuation]
  else none

/-- Scans from inside a sequence that began at `start`, of which `seen` bytes
were read and `expected` lists the ranges of the others. -/
def scanUtf8 (start seen : Nat) (expected : List ByteRange) : List UInt8 → Utf8Fault
  | [] => ⟨start, none⟩
  | byte :: rest =>
      match expected with
      | [] =>
          match followers byte with
          | none => ⟨start, some 1⟩
          | some [] => scanUtf8 (start + 1) 0 [] rest
          | some ranges => scanUtf8 start 1 ranges rest
      | range :: ranges =>
          if range.holds byte then
            match ranges with
            | [] => scanUtf8 (start + seen + 1) 0 [] rest
            | _ => scanUtf8 start (seen + 1) ranges rest
          else ⟨start, some seen⟩

def encodeUtf8 (text : String) : List UInt8 := text.toByteArray.data.toList

def decodeUtf8 (bytes : List UInt8) : Except Utf8Fault String :=
  match String.fromUTF8? bytes.toByteArray with
  | some text => .ok text
  | none => .error (scanUtf8 0 0 [] bytes)

theorem decodeUtf8_encodeUtf8 (text : String) : decodeUtf8 (encodeUtf8 text) = .ok text := by
  have h : (encodeUtf8 text).toByteArray = text.toByteArray := by
    apply ByteArray.ext
    apply Array.toList_inj.1
    simp [encodeUtf8]
  simp only [decodeUtf8, h, String.fromUTF8?, text.isValidUTF8, dite_true]
  rfl

end DefinitionFiles.Text
