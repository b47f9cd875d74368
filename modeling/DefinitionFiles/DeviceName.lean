import DefinitionFiles.Record
import DefinitionFiles.Text.Hex

namespace DefinitionFiles

/-- What the name of a definition file says of the device it is for. -/
structure DeviceName where
  category : String
  address : Nat
  software : Option Nat
  hardware : Option Nat
  values : Record
deriving DecidableEq

namespace DeviceName

def versionOf (tag part : List Char) : Option (List Char) :=
  let digits := part.drop 2
  if (part.take 2).map Char.toLower = tag ∧ digits.length = 4 ∧ digits.all Char.isDigit = true then
    some digits
  else none

structure Parts where
  names : List (List Char) := []
  hardware : Option (List Char) := none
  software : Option (List Char) := none

/-- Up to two names come first; a later version part replaces an earlier one. -/
def readParts (parts : Parts) : List (List Char) → Option Parts
  | [] => some parts
  | part :: rest =>
      match versionOf ['h', 'w'] part with
      | some digits => readParts { parts with hardware := some digits } rest
      | none =>
          match versionOf ['s', 'w'] part with
          | some digits => readParts { parts with software := some digits } rest
          | none =>
              if parts.hardware.isNone && parts.software.isNone && parts.names.length < 2 then
                readParts { parts with names := parts.names ++ [part] } rest
              else none

def versionText (tag : String) : Option (List Char) → String
  | none => ""
  | some digits => tag ++ String.ofList digits

def nonEmpty? (name : Option (List Char)) : Option (List Char) := name.filter (!·.isEmpty)

def ofParts (zz ident : List Char) (address : Nat) (parts : Parts) : DeviceName :=
  let zz := String.ofList (zz.map Char.toLower)
  let circuit := (nonEmpty? parts.names[0]?).getD ident
  let seeded : Record := Std.ExtTreeMap.ofList
    [("zz", zz), ("ident", String.ofList ident), ("circuit", String.ofList circuit)]
  { category := zz ++ versionText ".hw" parts.hardware ++ versionText ".sw" parts.software
    address
    software := parts.software.map Text.ofDecimal
    hardware := parts.hardware.map Text.ofDecimal
    values :=
      match nonEmpty? parts.names[1]? with
      | none => seeded
      | some name => seeded.insert "suffix" (String.ofList name) }

/-- Reads a file name without its directory. All but what follows the last dot is
read: an address of two hexadecimal digits, an identifier, then the other parts. -/
def parse (fileName : String) : Option DeviceName :=
  match (fileName.toList.splitOn '.').dropLast with
  | zz :: ident :: rest =>
      if zz.length = 2 ∧ ident ≠ [] then
        match Text.ofHex zz, readParts {} rest with
        | some address, some parts => some (ofParts zz ident address parts)
        | _, _ => none
      else none
  | _ => none

end DeviceName

end DefinitionFiles
