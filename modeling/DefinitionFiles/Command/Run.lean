import DefinitionFiles.Command.Arguments
import DefinitionFiles.Command.Gathered
import DefinitionFiles.Command.Json
import DefinitionFiles.Reading.Source

namespace DefinitionFiles.Command

abbrev Files := String → FileState

inductive CommandFailure
  | read (failure : ReadFailure)
  | filesFailed (failed total : Nat)
deriving DecidableEq, Repr

def CommandFailure.message : CommandFailure → String
  | read failure => failure.message
  | filesFailed failed total => s!"{failed} of {total} files failed"

structure Report where
  output : Array String := #[]
  errors : Array String := #[]
  failure : Option CommandFailure := none

def Report.say (report : Report) (lines : List String) : Report :=
  { report with output := report.output ++ lines }

def Report.complain (report : Report) (line : String) : Report :=
  { report with errors := report.errors.push line }

def Report.conclude (report : Report) (failed total : Nat) : Report :=
  if failed = 0 then report else { report with failure := some (.filesFailed failed total) }

def passed (path : String) : String := "✓ " ++ path

def failed (path : String) : String := "✗ " ++ path

structure HashRun where
  report : Report := {}
  failed : Nat := 0

def hashFile (files : Files) (options : SourceOptions) (run : HashRun) (path : String) : HashRun :=
  match (Sink.discard.readPath {} path options (files path) ()).outcome with
  | .ok summary =>
      let fields := [path, summary.fingerprint.display, toString summary.fingerprint.size,
        toString (summary.modifiedSeconds.getD 0)]
      { run with report := run.report.say [" ".intercalate fields] }
  | .error failure => ⟨run.report.complain (Command.failed failure.message), run.failed + 1⟩

def hash (files : Files) (verbose : Bool) (paths : List String) : Report :=
  let run := paths.foldl (hashFile files { verbose }) {}
  run.report.conclude run.failed paths.length

structure CheckRun where
  state : MappingState Gathered := nothingGathered
  report : Report := {}
  failed : Nat := 0

def checkFile (files : Files) (config : MappingConfig) (required : List String)
    (options : SourceOptions) (run : CheckRun) (path : String) : CheckRun :=
  let before := run.state.handler
  let read := ((gatherer required).sink config).readPath {} path options (files path) run.state
  let after := read.state.handler
  match read.outcome with
  | .ok summary =>
      { run with
        state := read.state
        report := run.report.say [passed path,
          s!"  Rows: {after.latest.length - before.latest.length}",
          s!"  Defaults: {after.defaults - before.defaults}",
          s!"  Hash: {summary.fingerprint.display}"] }
  | .error failure =>
      ⟨read.state, (run.report.say [Command.failed path]).complain failure.message, run.failed + 1⟩

/-- Reads files one after the other, so that the default rows of one apply to those
after it, and counts their rows. -/
def check (files : Files) (verbose noDefaults : Bool) (required paths : List String) : Report :=
  let config : MappingConfig := if noDefaults then {} else .takingDefaults
  let run := paths.foldl (checkFile files config required { verbose }) {}
  let categories := run.state.table.categories
  let report :=
    if categories.isEmpty then run.report
    else run.report.say ["Default categories: " ++ " ".intercalate categories]
  report.conclude run.failed paths.length

def areNamesOf (names : List String) (record : Record) : Bool :=
  names.length == record.size && names.all record.contains

/-- Writes the sub-row at some position in the order of its column group, or of the
main columns if it comes from a continuation row, or else of its names. -/
def writtenSub (columns : Option Columns) (index : Nat) (sub : Record) : String :=
  let orders := columns.elim [] (fun columns => columns.groups[index]?.toList ++ [columns.main])
  match orders.find? (areNamesOf · sub) with
  | some names => sub.written names
  | none => sub.writtenByName

def writtenLines (state : MappingState Gathered) (gathered : GatheredRecord) : List String :=
  state.written gathered.main ::
    gathered.subs.mapIdx (fun index sub => "  " ++ writtenSub state.session.columns index sub)

def GatheredRecord.json (gathered : GatheredRecord) : Json :=
  .object [("line", .number gathered.line), ("row", .ofRecord gathered.main),
    ("sub_rows", .array (gathered.subs.map .ofRecord))]

def dump (files : Files) (verbose json : Bool) (path : String) : Report :=
  let sink := (gatherer []).sink .takingDefaults
  let read := sink.readPath {} path { verbose } (files path) nothingGathered
  match read.outcome with
  | .error failure => { failure := some (.read failure) }
  | .ok _ =>
      let records := read.state.handler.records
      if json then Report.say {} [Json.array (records.map GatheredRecord.json) 0]
      else Report.say {} (records.flatMap (writtenLines read.state))

def Invocation.run (invocation : Invocation) (files : Files) : Report :=
  match invocation.request with
  | .hash paths => hash files invocation.verbose paths
  | .check paths noDefaults required => check files invocation.verbose noDefaults required paths
  | .dump path json => dump files invocation.verbose json path

structure Exit where
  code : Nat
  output : String := ""
  errors : String := ""
deriving DecidableEq, Repr

def unlines (lines : Array String) : String := lines.foldl (fun text line => text ++ line ++ "\n") ""

def Report.exit (report : Report) : Exit :=
  match report.failure with
  | none => ⟨0, unlines report.output, unlines report.errors⟩
  | some failure =>
      ⟨1, unlines report.output, unlines (report.errors.push ("Error: " ++ failure.message))⟩

def NotRun.code : NotRun → Nat
  | explained => 0
  | misused => 2

def run (arguments : List String) (files : Files) : Exit :=
  match Invocation.parse arguments with
  | .error stop => { code := stop.code }
  | .ok invocation => (invocation.run files).exit

end DefinitionFiles.Command
