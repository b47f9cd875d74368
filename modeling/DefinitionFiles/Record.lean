import DefinitionFiles.Row.Written
import Std.Data.ExtTreeMap

namespace DefinitionFiles

/-- The values of a row, or of one part of it, by column name in the order of names. -/
abbrev Record := Std.ExtTreeMap String String

namespace Record

/-- Pairs names with fields in order; names without a field get the empty value. -/
def pairUp : List String → Row → List (String × String)
  | [], _ => []
  | name :: names, fields => (name, fields.headD "") :: pairUp names fields.tail

def ofFields (names : List String) (fields : Row) : Record :=
  Std.ExtTreeMap.ofList (pairUp names fields)

def value (record : Record) (name : String) : String := record.getD name ""

def isBlank (record : Record) : Bool := record.values.all (·.isEmpty)

def withoutEmpty (record : Record) : Record := record.filter (fun _ value => !value.isEmpty)

def overlay (record above : Record) : Record := record ∪ above

def fill (record defaults : Record) : Record :=
  record.map (fun name value => if value.isEmpty then defaults.getD name value else value)

def fillCount (record defaults : Record) : Nat :=
  record.toList.countP (fun entry => entry.2.isEmpty && defaults.contains entry.1)

def written (record : Record) (names : List String) : String := Row.written (names.map record.value)

def writtenByName (record : Record) : String := Row.written record.values

end Record

end DefinitionFiles
