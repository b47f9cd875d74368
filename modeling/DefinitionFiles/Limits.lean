namespace DefinitionFiles

/-- Bounds on what one row may take up: the bytes of a physical line without its
terminator, and the physical lines that a quoted field may join. -/
structure Limits where
  lineLength : Nat := 1048576
  linesPerRow : Nat := 1000
deriving DecidableEq, Repr

namespace Limits

def greatest : Nat := UInt64.size - 1

def unlimited : Limits := ⟨greatest, greatest⟩

def readLength (limits : Limits) : Nat := min (limits.lineLength + 2) greatest

end Limits

end DefinitionFiles
