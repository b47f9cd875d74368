import DefinitionFiles.Text.Hex
import DefinitionFiles.Text.Utf8

namespace DefinitionFiles

/-- A running hash of the trimmed lines of a source, with their total length,
each line counting one byte more than it has. -/
structure Fingerprint where
  hash : UInt64 := 0
  size : UInt64 := 0
deriving DecidableEq, Inhabited, Repr

namespace Fingerprint

def lineDigest (bytes : List UInt8) : UInt64 :=
  bytes.foldl (fun hash byte => (hash ^^^ byte.toUInt64) * 0x100000001b3) 0xcbf29ce484222325

def mix (hash value : UInt64) : UInt64 :=
  let shifted : UInt64 := (hash <<< 6) + (hash >>> 2)
  hash ^^^ (value + 0x9e3779b9 + shifted)

def addBytes (fingerprint : Fingerprint) (line : List UInt8) : Fingerprint :=
  ⟨mix fingerprint.hash (lineDigest line), fingerprint.size + (line.length.toUInt64 + 1)⟩

def add (fingerprint : Fingerprint) (line : String) : Fingerprint :=
  fingerprint.addBytes (Text.encodeUtf8 line)

def display (fingerprint : Fingerprint) : String :=
  Text.hex 8 fingerprint.hash.toNat

end Fingerprint

end DefinitionFiles
