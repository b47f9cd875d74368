import DefinitionFiles.Failure
import DefinitionFiles.Record

namespace DefinitionFiles

inductive RowWidth
  | exact
  | shortAllowed
deriving DecidableEq, Repr

/-- The columns that a header names: those of the main row, then each group of
columns that makes up one sub-row. -/
structure Columns where
  main : List String
  groups : List (List String)
deriving DecidableEq, Repr

structure RecordParts where
  main : Record
  subs : List Record

def dropBlankEnd (isBlank : Record → Bool) (subs : List Record) : List Record :=
  (subs.reverse.dropWhile isBlank).reverse

namespace Columns

def checkName (group : List String) (position : Nat) (name : String) : Except HeaderFault Unit :=
  if name.isEmpty then .error (.emptyName position)
  else if group.contains name then .error (.duplicateName name)
  else .ok ()

def groupsFrom (closed : List (List String)) (group : List String) (position : Nat) :
    List String → Except HeaderFault (List (List String))
  | [] => .ok (closed ++ [group])
  | raw :: rest =>
      let (opens, name) := splitMark (Text.trim raw)
      if opens then
        if position = 1 then .error (.firstOpensGroup (Text.trim raw))
        else
          let name := Text.trim name
          match checkName [] position name with
          | .error fault => .error fault
          | .ok () => groupsFrom (closed ++ [group]) [name] (position + 1) rest
      else
        match checkName group position name with
        | .error fault => .error fault
        | .ok () => groupsFrom closed (group ++ [name]) (position + 1) rest

/-- The columns that a header names. A marked name opens a group. -/
def ofHeader (header : List String) : Except HeaderFault Columns :=
  match groupsFrom [] [] 1 header with
  | .error fault => .error fault
  | .ok [] | .ok ([] :: _) => .error .noColumns
  | .ok (main :: groups) => .ok ⟨main, groups⟩

def names (columns : Columns) : List String := columns.main ++ columns.groups.flatten

def size (columns : Columns) : Nat := columns.names.length

def position? (columns : Columns) (name : String) : Option Nat :=
  columns.main.findIdx? (· == name)

def contains (columns : Columns) (name : String) : Bool := (columns.position? name).isSome

def deal : List (List String) → Row → List Record
  | [], _ => []
  | group :: groups, fields =>
      Record.ofFields group fields :: deal groups (fields.drop group.length)

def accepts (columns : Columns) (width : RowWidth) (count : Nat) : Bool :=
  match width with
  | .exact => count == columns.size
  | .shortAllowed => count ≤ columns.size

/-- Gives each column its field of a row, leaving out blank sub-rows at the end. -/
def assign (columns : Columns) (width : RowWidth) (row : Row) : Except ShapeFault RecordParts :=
  if columns.accepts width row.length then
    .ok ⟨Record.ofFields columns.main row,
      dropBlankEnd Record.isBlank (deal columns.groups (row.drop columns.main.length))⟩
  else .error (.fieldCount row.length columns.size)

def writtenRecord (columns : Columns) (record : Record) : String := record.written columns.main

def markFirst : List String → List String
  | [] => []
  | name :: names => String.ofList (defaultMark :: name.toList) :: names

def header (columns : Columns) : List String := columns.main ++ columns.groups.flatMap markFirst

def written (columns : Columns) : String := Row.written columns.header

end Columns

end DefinitionFiles
