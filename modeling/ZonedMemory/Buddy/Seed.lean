import ZonedMemory.Buddy.Basic

namespace ZonedMemory.Buddy

/-!
Setting up a buddy: the range is covered from its start with the largest naturally aligned blocks
that fit, and every free list names its blocks in address order.
-/

/-- The largest order, not above the given one, of a block that starts at `index` and ends within
`total` pages. -/
def fittingOrder (index total : Nat) : (order : Nat) → Except Fault Nat
  | 0 => do
      let stop ← Word.add index (← Word.shiftLeft 1 0)
      if stop > total then throw .subOverflow else return 0
  | order + 1 => do
      let stop ← Word.add index (← Word.shiftLeft 1 (order + 1))
      if stop > total then fittingOrder index total order else return order + 1

/-- Covers the pages from `index` on; `tails` names the last block of every list so far. Each block
has a page, so as many blocks as there are pages suffice. -/
def cover (total : Nat) :
    (blocks : Nat) → (index : Nat) → (tails : Vector (Option Nat) Order.count) → Buddy →
      Except Fault Buddy
  | 0, _, _, b => pure b
  | blocks + 1, index, tails, b => do
      if index < total then
        let frame ← Word.add b.firstFrame index
        let order ← fittingOrder index total (min (Frame.alignmentOrder frame) Order.top)
        let b ← b.tag index (.free order)
        if h : order < Order.count then
          let b ←
            match tails[order] with
            | some last => b.link last (some index)
            | none => b.setFreeList order { b.lists[order] with head := some index }
          let list ← b.freeList order
          let count ← Word.add list.count 1
          let b ← b.setFreeList order { list with count := count }
          let next ← Word.add index (← Word.shiftLeft 1 order)
          cover total blocks next (tails.set order (some index)) b
        else
          throw (.outOfBounds Order.count order)
      else
        return b

/-- A buddy for the whole pages of a range, all of them free. There have to be records for all
pages, and few enough pages for a link to name each. -/
def create (range : Range) (records : Nat) : Except Fault Buddy := do
  let range ← range.pageAligned
  let total := range.pageCount
  if records < total then
    throw (.tooFewRecords records total)
  else if PageRecord.noLink ≤ total then
    throw .tooManyPages
  else
    let blank : Buddy :=
      { range := range
        firstFrame := Frame.ofAddress range.base
        pages := Array.replicate total PageRecord.tail
        lists := Vector.replicate Order.count FreeList.empty
        freePages := 0 }
    let b ← cover total total 0 (Vector.replicate Order.count none) blank
    return { b with freePages := total }

end ZonedMemory.Buddy
