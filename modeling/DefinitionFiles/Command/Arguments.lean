namespace DefinitionFiles.Command

inductive Request
  | hash (files : List String)
  | check (files : List String) (noDefaults : Bool) (required : List String)
  | dump (file : String) (json : Bool)
deriving DecidableEq, Repr

structure Invocation where
  verbose : Bool
  request : Request
deriving DecidableEq, Repr

/-- Why a command line is not run: it asks what there is to run, or it makes no sense. -/
inductive NotRun
  | explained
  | misused
deriving DecidableEq, Repr

inductive Name
  | hash
  | check
  | dump
deriving DecidableEq, Repr

def Name.ofText? : String → Option Name
  | "hash" => some .hash
  | "check" => some .check
  | "dump" => some .dump
  | _ => none

inductive Switch
  | verbose
  | noDefaults
  | json
deriving DecidableEq, Repr

structure Words where
  switches : List Switch := []
  required : List String := []
  files : List String := []

inductive Opt
  | switch (switch : Switch)
  | required
  | explain
deriving DecidableEq, Repr

def Opt.ofLong? (command : Option Name) : String → Option Opt
  | "verbose" => some (.switch .verbose)
  | "help" => some .explain
  | "version" => if command = none then some .explain else none
  | "no-defaults" => if command = some .check then some (.switch .noDefaults) else none
  | "json" => if command = some .dump then some (.switch .json) else none
  | "required" => if command = some .check then some .required else none
  | _ => none

def Opt.ofShort? (command : Option Name) : Char → Option Opt
  | 'v' => some (.switch .verbose)
  | 'h' => some .explain
  | 'V' => if command = none then some .explain else none
  | 'r' => if command = some .check then some .required else none
  | _ => none

inductive Form
  | separator
  | long (name : String) (value : Option String)
  | short (letters : List Char)
  | plain
deriving DecidableEq, Repr

def formOf (word : String) : Form :=
  match word.toList with
  | ['-', '-'] => .separator
  | '-' :: '-' :: text =>
      match text.dropWhile (· != '=') with
      | [] => .long (String.ofList text) none
      | _ :: value =>
          .long (String.ofList (text.takeWhile (· != '='))) (some (String.ofList value))
  | '-' :: letter :: letters => .short (letter :: letters)
  | _ => .plain

namespace Words

def switchOn (words : Words) (switch : Switch) : Except NotRun Words :=
  if words.switches.contains switch then .error .misused
  else .ok { words with switches := words.switches ++ [switch] }

def require (words : Words) (column : String) : Words :=
  { words with required := words.required ++ [column] }

def file (name : Name) (words : Words) (path : String) : Except NotRun Words :=
  if name = .dump ∧ words.files ≠ [] then .error .misused
  else .ok { words with files := words.files ++ [path] }

/-- Reads letters that share one dash. The letter of an option with a value ends
them: what follows it is the value, after an optional equals sign; if nothing does,
the value is still to come. -/
def letters (command : Option Name) (words : Words) : List Char → Except NotRun (Words × Bool)
  | [] => .ok (words, false)
  | letter :: rest =>
      match Opt.ofShort? command letter with
      | none => .error .misused
      | some .explain => .error .explained
      | some (.switch switch) =>
          match words.switchOn switch with
          | .error stop => .error stop
          | .ok words => words.letters command rest
      | some .required =>
          match rest with
          | [] => .ok (words, true)
          | '=' :: value => .ok (words.require (String.ofList value), false)
          | value => .ok (words.require (String.ofList value), false)

def long (command : Option Name) (words : Words) (text : String) (value : Option String) :
    Except NotRun (Words × Bool) :=
  match Opt.ofLong? command text, value with
  | some .explain, none => .error .explained
  | some (.switch switch), none => (words.switchOn switch).map (·, false)
  | some .required, none => .ok (words, true)
  | some .required, some column => .ok (words.require column, false)
  | _, _ => .error .misused

/-- Reads the words after the name of a command; if `pending`, the next one has to
be the column that an option asks for. Options and files may mix, and after a
separator all words are files. The first word that ends the reading decides how. -/
def read (name : Name) (words : Words) (pending : Bool) : List String → Except NotRun Words
  | [] => if pending then .error .misused else .ok words
  | word :: rest =>
      match formOf word, pending with
      | .plain, true => (words.require word).read name false rest
      | _, true => .error .misused
      | .plain, false =>
          match words.file name word with
          | .error stop => .error stop
          | .ok words => words.read name false rest
      | .separator, false => rest.foldlM (Words.file name) words
      | .long text value, false =>
          match words.long (some name) text value with
          | .error stop => .error stop
          | .ok (words, pending) => words.read name pending rest
      | .short text, false =>
          match words.letters (some name) text with
          | .error stop => .error stop
          | .ok (words, pending) => words.read name pending rest

def request (words : Words) : Name → Except NotRun Request
  | .hash => if words.files.isEmpty then .error .misused else .ok (.hash words.files)
  | .check =>
      if words.files.isEmpty then .error .misused
      else .ok (.check words.files (words.switches.contains .noDefaults) words.required)
  | .dump =>
      match words.files with
      | [file] => .ok (.dump file (words.switches.contains .json))
      | _ => .error .misused

end Words

def canExplain : List String → Bool
  | [] => true
  | [word] => word == "help" || (Name.ofText? word).isSome
  | _ => false

namespace Invocation

def ofCommand (before : Words) (name : Name) (rest : List String) : Except NotRun Invocation := do
  let words ← ({} : Words).read name false rest
  let request ← words.request name
  return ⟨before.switches.contains .verbose || words.switches.contains .verbose, request⟩

def parseFrom (before : Words) : List String → Except NotRun Invocation
  | [] => .error .misused
  | word :: rest =>
      match formOf word with
      | .plain =>
          match Name.ofText? word with
          | some name => ofCommand before name rest
          | none =>
              if word = "help" ∧ canExplain rest then .error .explained else .error .misused
      | .separator => .error .misused
      | .long text value =>
          match before.long none text value with
          | .error stop => .error stop
          | .ok (before, _) => parseFrom before rest
      | .short text =>
          match before.letters none text with
          | .error stop => .error stop
          | .ok (before, _) => parseFrom before rest

def parse (arguments : List String) : Except NotRun Invocation := parseFrom {} arguments

end Invocation

end DefinitionFiles.Command
