import ZonedMemory.Frame
import ZonedMemory.Text.ByteSize

namespace ZonedMemory

/-!
Contiguous ranges of physical memory, given by their first byte and their size. The first address
past a range is computed on demand and faults when it is not a word, so a comparison faults only if
it has to look at that end.
-/

/-- The bytes from `base` on, `size` of them. -/
structure Range where
  base : Nat
  size : Nat
  deriving DecidableEq

namespace Range

def stop (r : Range) : Except Fault Nat := Word.add r.base r.size

/-- The range from `start` up to, not including, `stop`. -/
def ofBounds (start stop : Nat) : Except Fault Range := do
  let size ← Word.sub stop start
  return ⟨start, size⟩

def isEmpty (r : Range) : Bool := r.size == 0

def contains (r : Range) (addr : Nat) : Except Fault Bool :=
  if r.base ≤ addr then do
    return decide (addr < (← r.stop))
  else
    return false

def containsRange (r other : Range) : Except Fault Bool :=
  if r.base ≤ other.base then do
    let inner ← other.stop
    let outer ← r.stop
    return decide (inner ≤ outer)
  else
    return false

def overlaps (r other : Range) : Except Fault Bool := do
  let otherStop ← other.stop
  if r.base < otherStop then
    return decide (other.base < (← r.stop))
  else
    return false

/-- One range begins where the other one ends. -/
def adjacent (r other : Range) : Except Fault Bool := do
  let stop ← r.stop
  if stop = other.base then
    return true
  else
    return decide ((← other.stop) = r.base)

def merge (r other : Range) : Except Fault Range := do
  let stop ← r.stop
  let otherStop ← other.stop
  ofBounds (min r.base other.base) (max stop otherStop)

/-- Shrinks a range inwards to whole pages; without a whole page an empty range is left at the
rounded-up base. -/
def pageAligned (r : Range) : Except Fault Range := do
  let start ← Address.alignUp r.base pageSize
  let stop ← Address.alignDown (← r.stop) pageSize
  if stop ≤ start then return ⟨start, 0⟩ else ofBounds start stop

/-- The number of whole pages that fit into the size. -/
def pageCount (r : Range) : Nat := r.size / pageSize

/-- The parts below and from `addr` on; either may be empty. -/
def splitAt (r : Range) (addr : Nat) : Except Fault (Range × Range) := do
  if addr ≤ r.base then
    return (⟨r.base, 0⟩, r)
  else
    let stop ← r.stop
    if stop ≤ addr then
      return (r, ⟨stop, 0⟩)
    else
      let low ← ofBounds r.base addr
      let high ← ofBounds addr stop
      return (low, high)

/-- Both bounds and the size, for people. -/
def text (r : Range) : Except Fault String := do
  let stop ← r.stop
  return Text.groupedHex r.base ++ " - " ++ Text.groupedHex stop ++ " (" ++ Text.byteSize r.size ++ ")"

/-- The fields as they are stored. -/
def describe (r : Range) : String :=
  Text.record "PhysicalRange"
    [("base", Address.describe .physical r.base), ("size", toString r.size)]

end Range

end ZonedMemory
