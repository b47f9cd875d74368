namespace DefinitionFiles

inductive TextFailure
  | unreadable (reason : String)
  | unclosedQuote (line : Nat)
  | longLine (line length maximum : Nat)
  | manyLines (line maximum : Nat)
  | invalidUtf8 (line : Nat) (reason : String)
deriving DecidableEq, Repr

namespace TextFailure

def message : TextFailure → String
  | unreadable reason => s!"I/O error: {reason}"
  | unclosedQuote line => s!"line {line}: unterminated quoted field"
  | longLine line length maximum => s!"line {line}: line length {length} exceeds maximum {maximum}"
  | manyLines line maximum => s!"line {line}: row spans more than {maximum} lines"
  | invalidUtf8 line reason => s!"line {line}: invalid UTF-8: {reason}"

def line? : TextFailure → Option Nat
  | unreadable _ => none
  | unclosedQuote line | longLine line _ _ | manyLines line _ | invalidUtf8 line _ => some line

def isUnreadable : TextFailure → Bool
  | unreadable _ => true
  | _ => false

end TextFailure

inductive ShapeFault
  | fieldCount (found expected : Nat)
  | looseContinuation
  | unclosedQuote
  | longLine (length maximum : Nat)
  | manyLines (maximum : Nat)
  | invalidUtf8 (reason : String)
  | other (text : String)
deriving DecidableEq, Repr

def ShapeFault.message : ShapeFault → String
  | fieldCount found expected => s!"{found} fields, expected {expected}"
  | looseContinuation => "continuation row without a preceding row"
  | unclosedQuote => "unterminated quoted field"
  | longLine length maximum => s!"line length {length} exceeds maximum {maximum}"
  | manyLines maximum => s!"quoted field spans more than {maximum} lines"
  | invalidUtf8 reason => s!"invalid UTF-8: {reason}"
  | other text => text

inductive HeaderFault
  | noColumns
  | emptyName (position : Nat)
  | duplicateName (name : String)
  | firstOpensGroup (name : String)
  | missingName (name : String)
  | noHeader
  | unbound
  | other (text : String)
deriving DecidableEq, Repr

def HeaderFault.message : HeaderFault → String
  | noColumns => "no columns"
  | emptyName position => s!"empty column name at position {position}"
  | duplicateName name => s!"duplicate column {name}"
  | firstOpensGroup name => s!"first column {name} cannot start a sub-row group"
  | missingName name => s!"missing required column {name}"
  | noHeader => "no header row and no default columns"
  | unbound => "no columns bound"
  | other text => text

inductive Refusal
  | malformed (fault : ShapeFault)
  | header (fault : HeaderFault)
  | defaultsUnsupported
  | rejected (reason : String)
deriving DecidableEq, Repr

def Refusal.message : Refusal → String
  | malformed fault => fault.message
  | header fault => fault.message
  | defaultsUnsupported => "defaults not supported"
  | rejected reason => reason

/-- Why a source is not read to its end: it cannot be read at all, or a row of it
is refused. -/
inductive ReadFailure
  | unavailable (source reason : String)
  | refused (source : String) (line : Nat) (refusal : Refusal)
deriving DecidableEq, Repr

inductive FailureKind
  | io
  | structural
  | domain
deriving DecidableEq, Repr

namespace ReadFailure

def message : ReadFailure → String
  | unavailable source reason => s!"unable to read {source}: {reason}"
  | refused source line refusal =>
      let place := s!"{source}:{line}: "
      match refusal with
      | .malformed fault => place ++ "malformed row: " ++ fault.message
      | .header fault => place ++ "invalid header: " ++ fault.message
      | .defaultsUnsupported => place ++ "defaults not supported"
      | .rejected reason => place ++ reason

def line? : ReadFailure → Option Nat
  | unavailable _ _ => none
  | refused _ line _ => some line

def source : ReadFailure → String
  | unavailable source _ | refused source _ _ => source

def kind : ReadFailure → FailureKind
  | unavailable _ _ => .io
  | refused _ _ (.rejected _) => .domain
  | refused _ _ _ => .structural

/-- Locates a failure in the text of a source. One without a line of its own lies
at the last line read. -/
def ofText (source : String) (lastLine : Nat) (failure : TextFailure) : ReadFailure :=
  let malformed := fun fault => refused source (failure.line?.getD lastLine) (.malformed fault)
  match failure with
  | .unreadable reason => unavailable source reason
  | .unclosedQuote _ => malformed .unclosedQuote
  | .longLine _ length maximum => malformed (.longLine length maximum)
  | .manyLines _ maximum => malformed (.manyLines maximum)
  | .invalidUtf8 _ reason => malformed (.invalidUtf8 reason)

end ReadFailure

end DefinitionFiles
