import DefinitionFiles.Failure
import DefinitionFiles.Feed
import DefinitionFiles.Fingerprint
import DefinitionFiles.Limits
import DefinitionFiles.Row.Split

namespace DefinitionFiles

inductive ShownLine
  | text (text : String)
  | long (length : Nat)
  | invalid (reason : String)
  | unreadable (reason : String)

def LineRead.shown (limits : Limits) : LineRead → ShownLine
  | .failed reason => .unreadable reason
  | .line bytes =>
      if limits.lineLength < contentLength bytes then .long (contentLength bytes)
      else
        match Text.decodeUtf8 bytes with
        | .error fault => .invalid fault.message
        | .ok decoded => .text (Text.trim decoded)

namespace ShownLine

def text? : ShownLine → Option String
  | .text trimmed => some trimmed
  | .long _ | .invalid _ | .unreadable _ => none

def count : ShownLine → Nat
  | .text _ | .invalid _ => 1
  | .long _ | .unreadable _ => 0

def mark (fingerprint : Fingerprint) (shown : ShownLine) : Fingerprint :=
  shown.text?.elim fingerprint fingerprint.add

end ShownLine

/-- What the next line does to a row: the row goes on, or reading it ends and this is left. -/
inductive LineStep
  | onward (next : Split)
  | ended (outcome : Except TextFailure Bool) (left : Split)

namespace Split

/-- What a line, trimmed, makes of a row: between quotes it is joined to the line before. -/
def takeLine (lineNo : Nat) (text : String) (split : Split) : Split :=
  match split.place with
  | .quoted _ => split.joinLine.line lineNo text.toList
  | .outside _ => split.line lineNo text.toList

def ignores (split : Split) (text : String) : Bool :=
  match split.place with
  | .quoted _ => false
  | .outside _ => text.isEmpty || startsComment text

/-- The line on which quotes were opened that are open after as many lines as a row may have. -/
def overdue? (limits : Limits) (joined : Nat) (split : Split) : Option Nat :=
  match split.place with
  | .quoted openedOn => if limits.linesPerRow < joined + 1 then some openedOn else none
  | .outside _ => none

def unlessBlank (split : Split) : Split :=
  if Row.isBlank split.row then { split with fields := #[] } else split

theorem row_unlessBlank (split : Split) : split.unlessBlank.row = Row.unlessBlank split.row := by
  simp only [unlessBlank, Row.unlessBlank]
  split <;> rfl

def step (limits : Limits) (joined line : Nat) (split : Split) : ShownLine → LineStep
  | .unreadable reason => .ended (.error (.unreadable reason)) split
  | .long length => .ended (.error (.longLine (line + 1) length limits.lineLength)) split
  | .invalid reason => .ended (.error (.invalidUtf8 (line + 1) reason)) split
  | .text text =>
      match split.overdue? limits joined with
      | some openedOn => .ended (.error (.manyLines openedOn limits.linesPerRow)) split
      | none =>
          if split.ignores text then .ended (.ok true) split
          else
            let next := split.takeLine (line + 1) text
            match next.place with
            | .quoted _ => .onward next
            | .outside _ => .ended (.ok true) next.unlessBlank

def atEnd (split : Split) : Except TextFailure Bool :=
  match split.place with
  | .quoted openedOn => .error (.unclosedQuote openedOn)
  | .outside _ => .ok false

theorem atEnd_ne_ok_true (split : Split) : split.atEnd ≠ .ok true := by
  simp only [atEnd]
  split <;> simp

end Split

end DefinitionFiles
