import ZonedMemory.Address

namespace ZonedMemory.Frame

/-!
Frame numbers. Frame `n` holds the bytes from `n * pageSize` up to the next multiple of `pageSize`.
-/

def ofAddress (addr : Nat) : Nat := addr / pageSize

def start (frame : Nat) : Except Fault Nat := Word.mul frame pageSize

/-- The first frame of the other half of the next larger aligned block: the frame number with the
bit of the order flipped. -/
def buddy (frame order : Nat) : Except Fault Nat := do
  let bit ← Word.shiftLeft 1 order
  return frame ^^^ bit

/-- The largest order to whose block size the frame number is aligned. -/
def alignmentOrder (frame : Nat) : Nat := Word.trailingZeros frame 64

def describe (frame : Nat) : String := Text.tagged "FrameNumber" (toString frame)

end ZonedMemory.Frame
