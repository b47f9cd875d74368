import DefinitionFiles.Feed
import DefinitionFiles.Path

namespace DefinitionFiles

inductive FileState
  | unreadable (reason : String)
  | directory
  | file (content : Feed) (modified : Int)
deriving DecidableEq, Repr

inductive PathFault
  | missing
  | notDirectory
  | longName
  | nulCharacter
deriving DecidableEq, Repr

def PathFault.message : PathFault → String
  | missing => "No such file or directory (os error 2)"
  | notDirectory => "Not a directory (os error 20)"
  | longName => "File name too long (os error 36)"
  | nulCharacter => "file name contained an unexpected NUL byte"

abbrev Place := List String

namespace Place

/-- Where relative paths start. No path gives away what it is called, so it is a
directory in the root with the one name that paths cannot spell. -/
def home : Place := [""]

def start (path : String) : Place := if path.toList.head? = some '/' then [] else home

def step (place : Place) (name : String) : Place :=
  if name = ".." then place.dropLast else place ++ [name]

def passed (place : Place) : List String → List Place
  | [] => []
  | name :: names => place :: passed (place.step name) names

end Place

/-- Files that are given as a value, the latest state of a place first. Such a tree stands in for
the file system where commands are run without one: they find in it what `find` says. -/
structure FileTree where
  states : List (Place × FileState) := [([], .directory), (Place.home, .directory)]

namespace FileTree

def state? (tree : FileTree) (place : Place) : Option FileState := tree.states.lookup place

def put (tree : FileTree) (path : String) (state : FileState) : FileTree :=
  let start := Place.start path
  let names := Path.components path
  let passed := (Place.passed start names).map (·, .directory)
  ⟨(names.foldl Place.step start, state) :: (passed ++ tree.states)⟩

def longestName : Nat := 255

def longestPath : Nat := 4095

def follow (tree : FileTree) (place : Place) : List String → Except PathFault FileState
  | [] =>
      match tree.state? place with
      | none => .error .missing
      | some state => .ok state
  | name :: names =>
      match tree.state? place with
      | none => .error .missing
      | some .directory =>
          if name = "" ∨ name = "." then tree.follow place names
          else if longestName < name.utf8ByteSize then .error .longName
          else tree.follow (place.step name) names
      | some _ => .error .notDirectory

def resolve (tree : FileTree) (path : String) : Except PathFault FileState :=
  if path.toList.contains '\x00' then .error .nulCharacter
  else if path.isEmpty then .error .missing
  else if longestPath < path.utf8ByteSize then .error .longName
  else tree.follow (Place.start path) ((path.toList.splitOn '/').map String.ofList)

def find (tree : FileTree) (path : String) : FileState :=
  match tree.resolve path with
  | .ok state => state
  | .error fault => .unreadable fault.message

end FileTree

end DefinitionFiles
