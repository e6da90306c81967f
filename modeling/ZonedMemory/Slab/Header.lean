import ZonedMemory.Memory

namespace ZonedMemory

/-!
The header of a slab page. It stands at the start of the page, four 32-bit numbers and two words;
the rest of the page is cut into objects of one size, the first of them at a multiple of it.
-/

structure SlabHeader where
  magic : Nat
  objectSize : Nat
  totalObjects : Nat
  freeCount : Nat
  /-- The next page of the same cache, or `SlabHeader.noPage`. -/
  nextPage : Nat
  freeList : Nat

namespace SlabHeader

/-- What the header of every slab page starts with. -/
def validMagic : Nat := 0x53504C55

/-- The link that ends the list of pages. -/
def noPage : Nat := (1 <<< 64) - 1

def size : Nat := 32

def read (m : Memory) (page : Nat) : Except Fault SlabHeader := do
  m.reach page
  return {
    magic := m.number page 4
    objectSize := m.number (page + 4) 4
    totalObjects := m.number (page + 8) 4
    freeCount := m.number (page + 12) 4
    nextPage := m.number (page + 16) 8
    freeList := m.number (page + 24) 8 }

def write (m : Memory) (page : Nat) (header : SlabHeader) : Except Fault Memory := do
  m.reach page
  let m := m.setNumber page 4 header.magic
  let m := m.setNumber (page + 4) 4 header.objectSize
  let m := m.setNumber (page + 8) 4 header.totalObjects
  let m := m.setNumber (page + 12) 4 header.freeCount
  let m := m.setNumber (page + 16) 8 header.nextPage
  return m.setNumber (page + 24) 8 header.freeList

/-- Replaces the free list of a page: its first object and its length. -/
def writeFreeList (m : Memory) (page head freeCount : Nat) : Memory :=
  (m.setNumber (page + 24) 8 head).setNumber (page + 12) 4 freeCount

/-- The distance of the first object from the start of its page: past the header, at a multiple of
the object size. -/
def firstObject (objectSize : Nat) : Except Fault Nat := Word.nextMultiple size objectSize

def objectsPerPage (objectSize : Nat) : Except Fault Nat := do
  let room ← Word.sub pageSize (← firstObject objectSize)
  Word.div room objectSize

/-- Whether `addr` is where an object of the page starts. The tests are made in turn, so a later
one is not even computed when an earlier one fails. -/
def holdsObject (header : SlabHeader) (page addr : Nat) : Except Fault Bool :=
  if header.objectSize = 0 then
    return false
  else do
    let first ← Word.add page (← firstObject header.objectSize)
    if addr < first then
      return false
    else
      let stop ← Word.add addr header.objectSize
      let pageStop ← Word.add page pageSize
      if pageStop < stop then
        return false
      else
        let offset ← Word.sub addr first
        let rest ← Word.rem offset header.objectSize
        if rest ≠ 0 then
          return false
        else
          return decide (offset / header.objectSize < header.totalObjects)

end SlabHeader

end ZonedMemory
