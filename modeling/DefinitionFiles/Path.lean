namespace DefinitionFiles.Path

def components (path : String) : List String :=
  ((path.toList.splitOn '/').map String.ofList).filter (fun part => part != "" && part != ".")

def fileName? (path : String) : Option String :=
  (components path).getLast?.filter (· != "..")

end DefinitionFiles.Path
