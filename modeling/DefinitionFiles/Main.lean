import DefinitionFiles.Command.Run

namespace DefinitionFiles.Command

def Request.paths : Request → List String
  | .hash paths | .check paths _ _ => paths
  | .dump path _ => [path]

def unreadableReason : IO.Error → String
  | .noFileOrDirectory _ code details | .inappropriateType _ code details
  | .invalidArgument _ code details | .permissionDenied _ code details
  | .resourceExhausted _ code details | .noSuchThing _ code details
  | .hardwareFault code details | .resourceBusy code details
  | .otherError code details => s!"{details} (os error {code})"
  | error => toString error

def lookUp (path : String) : IO FileState := do
  if path.toList.contains '\x00' then return .unreadable PathFault.nulCharacter.message
  try
    let handle ← IO.FS.Handle.mk path .read
    let place ← IO.FS.realPath path
    if ← place.isDir then return .directory
    let metadata ← place.metadata
    let bytes ← handle.readBinToEnd
    return .file (Feed.ofBytes bytes.data.toList) metadata.modified.sec
  catch error => return .unreadable (unreadableReason error)

end DefinitionFiles.Command

open DefinitionFiles DefinitionFiles.Command

def main (arguments : List String) : IO UInt32 := do
  let paths :=
    match Invocation.parse arguments with
    | .ok invocation => invocation.request.paths
    | .error _ => []
  let found ← paths.mapM (fun path => return (path, ← lookUp path))
  let missing := FileState.unreadable PathFault.missing.message
  let exit := run arguments (fun path => (found.lookup path).getD missing)
  (← IO.getStdout).putStr exit.output
  (← IO.getStderr).putStr exit.errors
  return exit.code.toUInt32
