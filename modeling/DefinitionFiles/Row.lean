import DefinitionFiles.Text.Blank

namespace DefinitionFiles

abbrev Row := List String

def fieldSeparator : Char := ','

def quoteMark : Char := '"'

/-- Joins the values packed into one field, and the physical lines of a quoted one. -/
def valueSeparator : Char := ';'

def commentMark : Char := '#'

def defaultMark : Char := '*'

def startsComment (line : String) : Bool := line.toList.head? == some commentMark

def splitMark (field : String) : Bool × String :=
  match field.toList with
  | [] => (false, field)
  | c :: rest => if c = defaultMark then (true, String.ofList rest) else (false, field)

namespace Row

def isBlank (row : Row) : Bool := row.all (·.isEmpty)

/-- Rows of empty fields only count as having none. -/
def unlessBlank (row : Row) : Row := if isBlank row then [] else row

def isDefault (row : Row) : Bool := row.head?.any (fun field => (splitMark field).1)

def withoutMark : Row → Row
  | [] => []
  | field :: rest => (splitMark field).2 :: rest

end Row

end DefinitionFiles
