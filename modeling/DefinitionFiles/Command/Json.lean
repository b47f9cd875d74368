import DefinitionFiles.Record
import DefinitionFiles.Text.Hex

namespace DefinitionFiles.Command

/-- A JSON value as the text it has at each depth of nesting. -/
abbrev Json := Nat → String

namespace Json

def escape (c : Char) : String :=
  if c = '"' then "\\\""
  else if c = '\\' then "\\\\"
  else if c = '\x08' then "\\b"
  else if c = '\t' then "\\t"
  else if c = '\n' then "\\n"
  else if c = '\x0c' then "\\f"
  else if c = '\r' then "\\r"
  else if c < ' ' then "\\u" ++ Text.hex 4 c.toNat
  else c.toString

def quoted (text : String) : String :=
  "\"" ++ String.join (text.toList.map escape) ++ "\""

def indent (depth : Nat) : String := String.ofList (List.replicate (2 * depth) ' ')

def block (opening closing : String) (items : List Json) : Json := fun depth =>
  if items.isEmpty then opening ++ closing
  else
    let lines := items.map (fun item => indent (depth + 1) ++ item (depth + 1))
    opening ++ "\n" ++ ",\n".intercalate lines ++ "\n" ++ indent depth ++ closing

def text (value : String) : Json := fun _ => quoted value

def number (n : Nat) : Json := fun _ => toString n

def array (items : List Json) : Json := block "[" "]" items

def object (fields : List (String × Json)) : Json :=
  block "\x7b" "\x7d" (fields.map (fun field depth => quoted field.1 ++ ": " ++ field.2 depth))

def ofRecord (record : Record) : Json := object (record.toList.map (fun field => (field.1, text field.2)))

end Json

end DefinitionFiles.Command
