import DefinitionFiles.Text.Utf8

namespace DefinitionFiles

/-- What a source yields next: a byte, a failure to yield one, or an interruption
after which asking again goes on as if nothing had happened. -/
inductive Signal
  | byte (value : UInt8)
  | failure (reason : String)
  | interruption
deriving DecidableEq, Repr

abbrev Feed := List Signal

inductive LineRead
  | line (bytes : List UInt8)
  | failed (reason : String)
deriving DecidableEq, Repr

def lineFeed : UInt8 := 0x0A

def carriageReturn : UInt8 := 0x0D

def contentLength (bytes : List UInt8) : Nat :=
  match bytes.reverse with
  | [] => 0
  | last :: before =>
      if last = lineFeed then
        if before.head? = some carriageReturn then before.length - 1 else before.length
      else bytes.length

namespace Feed

def ofBytes (bytes : List UInt8) : Feed := bytes.map .byte

def ofText (text : String) : Feed := ofBytes (Text.encodeUtf8 text)

/-- Continues a line of which `taken` holds the bytes so far, last first, with
`room` for more. A line ends with its line feed, for want of room, or with the
feed; a failure drops what was taken of it. -/
def readsFrom (length : Nat) (reads : Array LineRead) (taken : List UInt8) (room : Nat) :
    Feed → Array LineRead
  | [] => if taken.isEmpty then reads else reads.push (.line taken.reverse)
  | .failure reason :: rest => readsFrom length (reads.push (.failed reason)) [] length rest
  | .interruption :: rest => readsFrom length reads taken room rest
  | .byte value :: rest =>
      if value = lineFeed ∨ room ≤ 1 then
        readsFrom length (reads.push (.line (value :: taken).reverse)) [] length rest
      else readsFrom length reads (value :: taken) (room - 1) rest

def reads (length : Nat) (feed : Feed) : List LineRead :=
  (readsFrom length #[] [] length feed).toList

theorem readsFrom_toList (length : Nat) (done : Array LineRead) (taken : List UInt8) (room : Nat)
    (feed : Feed) :
    (readsFrom length done taken room feed).toList =
      done.toList ++ (readsFrom length #[] taken room feed).toList := by
  induction feed generalizing done taken room with
  | nil => by_cases h : taken.isEmpty <;> simp [readsFrom, h]
  | cons signal rest ih =>
      cases signal with
      | byte value =>
          simp only [readsFrom]
          split
          · rw [ih, ih (#[].push _)]
            simp
          · rw [ih]
      | failure reason =>
          simp only [readsFrom]
          rw [ih, ih (#[].push _)]
          simp
      | interruption => simpa only [readsFrom] using ih done taken room

end Feed

end DefinitionFiles
