import ZonedMemory.Text.Hex

namespace ZonedMemory

/-!
Faults: the ways in which an operation can stop dead, with nothing left to return. They are
kept apart from the errors of `ZonedMemory.Error`, which are ordinary answers.
-/

/-- Why an operation stopped. -/
inductive Fault where
  | addOverflow
  | subOverflow
  | mulOverflow
  | shiftOverflow
  | divisionByZero
  | remainderByZero
  /-- A table of `size` entries was asked for the entry `index`. -/
  | outOfBounds (size index : Nat)
  /-- An alignment was not a power of two. -/
  | badAlignment
  /-- A physical address has no byte behind it. -/
  | unbacked (addr : Nat)
  /-- A pointer does not lead into the bytes behind the window. -/
  | strayPointer
  | emptyWindow
  | misalignedWindow
  | oversizedWindow
  /-- The bytes behind a window could not be set aside. -/
  | unbackedWindow
  | tooFewRecords (supplied needed : Nat)
  /-- The range has more pages than a link can name. -/
  | tooManyPages
  /-- A free list runs in a circle, so a walk along it never ends. -/
  | endlessList
  deriving DecidableEq

/-- The one wording of every fault. -/
def Fault.message : Fault → String
  | addOverflow => "attempt to add with overflow"
  | subOverflow => "attempt to subtract with overflow"
  | mulOverflow => "attempt to multiply with overflow"
  | shiftOverflow => "attempt to shift left with overflow"
  | divisionByZero => "attempt to divide by zero"
  | remainderByZero => "attempt to calculate the remainder with a divisor of zero"
  | outOfBounds size index =>
      "index out of bounds: the len is " ++ toString size ++ " but the index is " ++ toString index
  | badAlignment => "alignment must be a power of two"
  | unbacked addr => "physical address " ++ Text.hex addr ++ " outside emulated memory"
  | strayPointer => "pointer not within emulated memory"
  | emptyWindow => "emulated memory must not be empty"
  | misalignedWindow => "emulated memory base must be page aligned"
  | oversizedWindow => "invalid emulated memory layout: LayoutError"
  | unbackedWindow => "host allocation for emulated memory failed"
  | tooFewRecords supplied needed =>
      "buddy metadata holds " ++ toString supplied ++ " pages, range needs " ++ toString needed
  | tooManyPages => "buddy range too large"
  | endlessList => "free list has no end"

end ZonedMemory
