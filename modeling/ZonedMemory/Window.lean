import ZonedMemory.Range

namespace ZonedMemory

/-!
How physical memory is reached. In a direct map every physical address is reached at a fixed
distance; a window backs a single range of physical addresses with bytes of its own, and an address
outside it cannot be reached at all.
-/

/-- A backed range of physical addresses. -/
structure Window where
  base : Nat
  size : Nat

namespace Window

/-- The most bytes that can be laid out on whole pages in half an address space. -/
def largestLayout : Nat := (1 <<< 63) - pageSize

/-- The most bytes that can be set aside. Every byte of a window is cleared when it is made, so a
larger one would need more memory than there is. -/
def largestBacking : Nat := 1 <<< 34

/-- A window is not empty and starts with a page. -/
def create (base size : Nat) : Except Fault Window := do
  if size = 0 then
    throw .emptyWindow
  else if ← Address.isAligned base pageSize then
    if largestLayout < size then throw .oversizedWindow
    else if largestBacking < size then throw .unbackedWindow
    else return ⟨base, size⟩
  else
    throw .misalignedWindow

/-- The place of a physical address among the backing bytes. -/
def offsetOf (w : Window) (addr : Nat) : Except Fault Nat :=
  if w.base ≤ addr then do
    if addr < (← Word.add w.base w.size) then return addr - w.base else throw (.unbacked addr)
  else
    throw (.unbacked addr)

/-- The physical address of a backing byte. -/
def addressOf (w : Window) (offset : Nat) : Except Fault Nat :=
  if offset < w.size then Word.add w.base offset else throw .strayPointer

/-- The bounds of a window over sorted ranges: whole pages at the start, at least one page long. -/
def boundsOver (ranges : List Range) : Except Fault (Nat × Nat) := do
  match ranges.head?, ranges.getLast? with
  | some first, some last =>
      let base ← Address.alignDown first.base pageSize
      let stop ← last.stop
      let size ← Word.sub stop base
      return (base, max size pageSize)
  | _, _ => return (0, pageSize)

end Window

/-- A way to reach physical memory. -/
inductive Translator where
  /-- Physical memory appears `offset` further up, around the end of the address space. -/
  | directMap (offset : Nat)
  /-- Only the window can be reached; its bytes are named by their places. -/
  | window (window : Window)

namespace Translator

/-- Where a physical address is reached. -/
def toVirtual : Translator → Nat → Except Fault Nat
  | directMap offset, addr => pure (Word.wrappingAdd addr offset)
  | window w, addr => w.offsetOf addr

/-- The physical address that is reached at a place. -/
def toPhysical : Translator → Nat → Except Fault Nat
  | directMap offset, addr => pure (Word.wrappingSub addr offset)
  | window w, offset => w.addressOf offset

end Translator

end ZonedMemory
