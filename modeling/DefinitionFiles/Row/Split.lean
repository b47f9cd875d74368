import DefinitionFiles.Row

namespace DefinitionFiles

/-- Where in a row the splitter stands: between quotes opened on some line, or
outside, having seen nothing but blanks of the field or more than that. -/
inductive SplitPlace
  | outside (fieldStart : Bool)
  | quoted (openedOn : Nat)
deriving DecidableEq, Repr

/-- A row while it is split: the finished fields and the text of the next one. -/
structure Split where
  fields : Array String := #[]
  text : String := ""
  place : SplitPlace := .outside true

namespace Split

def row (split : Split) : Row := split.fields.toList

def push (split : Split) (c : Char) : Split := { split with text := split.text.push c }

def finishField (split : Split) : Split :=
  { split with fields := split.fields.push (Text.trim split.text), text := "" }

def endLine (split : Split) : Split :=
  match split.place with
  | .quoted _ => split
  | .outside _ => split.finishField

def outside (split : Split) (fieldStart : Bool) : Split :=
  { split with place := .outside fieldStart }

/-- Splits a line character by character. A quote mark opens a quoted section only
where the field has shown no more than blanks, which are dropped; inside, a doubled
mark stands for one. -/
def scan (lineNo : Nat) : List Char → Split → Split
  | [], split => split.endLine
  | c :: rest, split =>
      match split.place with
      | .quoted _ =>
          if c = quoteMark then
            match rest with
            | [] => (split.outside false).endLine
            | d :: rest' =>
                if d = quoteMark then scan lineNo rest' (split.push quoteMark)
                else scan lineNo (d :: rest') (split.outside false)
          else scan lineNo rest (split.push c)
      | .outside fieldStart =>
          if c = fieldSeparator then scan lineNo rest (split.finishField.outside true)
          else if c = quoteMark ∧ fieldStart = true then
            scan lineNo rest { split with text := "", place := .quoted lineNo }
          else scan lineNo rest ((split.push c).outside (fieldStart && Text.isBlank c))

def cut (line : List Char) (split : Split) : Split :=
  (line.splitOn fieldSeparator).foldl
    (fun split piece => { split with text := split.text ++ String.ofList piece }.finishField) split

def line (lineNo : Nat) (line : List Char) (split : Split) : Split :=
  match split.place with
  | .quoted _ => scan lineNo line split
  | .outside _ => if line.contains quoteMark then scan lineNo line split else cut line split

/-- A line break between quotes reads as one value separator. -/
def joinLine (split : Split) : Split :=
  if split.text.back? = some valueSeparator then split else split.push valueSeparator

end Split

end DefinitionFiles
