import ZonedMemory.Text.Record
import ZonedMemory.Word

namespace ZonedMemory

/-!
Addresses. An address is a word; the same arithmetic serves the physical side and the side through
which memory is reached, and only the printed text tells them apart.
-/

def pageSize : Nat := 4096

def pageShift : Nat := 12

/-- Which of the two address spaces an address belongs to. -/
inductive AddressSpace where
  | physical
  | virtual
  deriving DecidableEq

namespace Address

/-- The name of the space with the address in hexadecimal. -/
def describe : AddressSpace → Nat → String
  | .physical, addr => Text.tagged "PhysicalAddress" (Text.hex addr)
  | .virtual, addr => Text.tagged "VirtualAddress" (Text.hex addr)

/-- Alignments are powers of two; any other one faults. -/
def checkAlignment (align : Nat) : Except Fault Unit :=
  if Word.isPowerOfTwo align then .ok () else .error .badAlignment

/-- An address is aligned when all bits below the alignment's are clear. -/
def isAligned (addr align : Nat) : Except Fault Bool := do
  checkAlignment align
  return addr &&& (align - 1) == 0

/-- Clears all bits below the alignment's. -/
def alignDown (addr align : Nat) : Except Fault Nat := do
  checkAlignment align
  return addr &&& Word.complement (align - 1)

/-- Clears the low bits after adding all of them. The sum with the whole alignment comes first, so
an address in the topmost block faults even when it is aligned already. -/
def alignUp (addr align : Nat) : Except Fault Nat := do
  checkAlignment align
  let past ← Word.add addr align
  let last ← Word.sub past 1
  return last &&& Word.complement (align - 1)

def pageOffset (addr : Nat) : Nat := addr &&& (pageSize - 1)

end Address

end ZonedMemory
