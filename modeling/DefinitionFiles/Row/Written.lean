import DefinitionFiles.Row

namespace DefinitionFiles

def needsQuotes (value : String) : Bool :=
  value.toList.any (fun c => c == fieldSeparator || c == quoteMark || c == commentMark) ||
    Text.trim value != value

def doubleQuotes (text : List Char) : List Char :=
  text.flatMap (fun c => if c = quoteMark then [quoteMark, quoteMark] else [c])

def writtenField (value : String) : String :=
  if needsQuotes value then
    String.ofList (quoteMark :: (doubleQuotes value.toList ++ [quoteMark]))
  else value

def Row.written (row : Row) : String :=
  String.ofList ([fieldSeparator].intercalate (row.map (fun value => (writtenField value).toList)))

end DefinitionFiles
