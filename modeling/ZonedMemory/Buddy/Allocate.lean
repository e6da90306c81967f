import ZonedMemory.Buddy.Release
import ZonedMemory.Error

namespace ZonedMemory.Buddy

/-!
Allocating a block: the smallest free block that is large enough and aligned enough is taken and
halved down to the order asked for, always keeping the lower half.
-/

/-- Halves the block at `index` from the given order down to `order`; upper halves become free. -/
def splitDown (index order : Nat) : (found : Nat) → Buddy → Traced Buddy
  | 0, b => pure b
  | half + 1, b =>
      if half < order then
        pure b
      else do
        let upper ← Word.add index (← Word.shiftLeft 1 half)
        let b ← b.tag upper (.free half)
        let b ← b.push upper half
        Traced.report (.buddy (.split (half + 1) b.firstFrame index))
        splitDown index order half b

/-- Takes a block of order `found` off its list, splits it and marks what is left as allocated. The
block is given back if it turns out not to be aligned. -/
def take (b : Buddy) (order align alignOrder found : Nat) :
    Traced (Except AllocError Nat × Buddy) := do
  match ← b.pop found with
  | (none, b) => return (.error .outOfMemory, b)
  | (some index, b) =>
      let b ← splitDown index order found b
      let b ← b.tag index (.allocated order)
      let pages ← Word.shiftLeft 1 order
      let freePages ← Word.sub b.freePages pages
      let b := { b with freePages := freePages }
      let addr ← b.addressOf index
      let aligned ←
        if align > pageSize then do
          let shift ← Word.add alignOrder pageShift
          let bytes ← Word.shiftLeft 1 shift
          let aligned ← Address.isAligned addr bytes
          pure aligned
        else
          pure true
      if aligned then
        Traced.report (.buddy (.allocated order addr))
        return (.ok addr, b)
      else
        Traced.report (.buddy (.missedAlignment addr found alignOrder))
        let b ← b.release index order
        let freePages ← Word.add b.freePages pages
        return (.error .outOfMemory, { b with freePages := freePages })

/-- Allocates `2 ^ order` pages at a multiple of `align` bytes. An alignment above the block's own
size is met by searching from the order whose blocks have it. -/
def allocate (b : Buddy) (order align : Nat) : Traced (Except AllocError Nat × Buddy) := do
  if Order.count ≤ order then
    return (.error (.orderTooLarge order), b)
  else
    match ← Order.ofAlignment align with
    | none => return (.error (.orderTooLarge 64), b)
    | some alignOrder =>
        let required := max order alignOrder
        if Order.count ≤ required then
          return (.error (.orderTooLarge required), b)
        else
          match b.smallestFreeOrder? required with
          | none => return (.error .outOfMemory, b)
          | some found => b.take order align alignOrder found

end ZonedMemory.Buddy
