import ZonedMemory.Buddy.Chain
import ZonedMemory.Error
import ZonedMemory.Traced

namespace ZonedMemory.Buddy

/-!
Freeing a block: it is joined with its free buddy as long as there is one, and the block that comes
out of it goes to the head of its list.
-/

/-- The page index of the buddy of a block, if the whole buddy lies in the range. -/
def buddyIndex? (b : Buddy) (index order : Nat) : Except Fault (Option Nat) := do
  let frame ← Word.add b.firstFrame index
  let buddyFrame ← Frame.buddy frame order
  if buddyFrame < b.firstFrame then
    return none
  else
    let buddy ← Word.sub buddyFrame b.firstFrame
    let stop ← Word.add buddy (← Word.shiftLeft 1 order)
    return if b.pages.size < stop then none else some buddy

/-- Joins the block of order `Order.top - steps` at `index` with its buddies as far as they are
free; gives the place and the order of the block that results. -/
def mergeUp : (steps index : Nat) → Buddy → Traced (Nat × Nat × Buddy)
  | 0, index, b => return (index, Order.top, b)
  | steps + 1, index, b => do
      let order := Order.top - (steps + 1)
      match ← b.buddyIndex? index order with
      | none => return (index, order, b)
      | some buddy =>
          let record ← b.record buddy
          if record.state = .free order then
            match ← b.unlink buddy order with
            | (false, b) =>
                Traced.report (.buddy (.missing order b.firstFrame buddy))
                return (index, order, b)
            | (true, b) =>
                let b ← b.tag (max index buddy) .tail
                let lower := min index buddy
                Traced.report (.buddy (.merged (order + 1) b.firstFrame lower))
                mergeUp steps lower b
          else
            return (index, order, b)

/-- Puts a block back on the free lists, joined with its free buddies. The number of free pages is
the caller's business. -/
def release (b : Buddy) (index order : Nat) : Traced Buddy := do
  let (index, order, b) ← mergeUp (Order.top - order) index b
  let b ← b.tag index (.free order)
  b.push index order

/-- The order of the allocated block that starts at a page, or why there is none. -/
def allocatedOrder (b : Buddy) (index : Nat) : Except Fault (Except FreeError Nat) := do
  let record ← b.record index
  match record.state with
  | .allocated order =>
      if Order.count ≤ order then
        return .error (.corruptOrder order)
      else
        let stop ← Word.add index (← Word.shiftLeft 1 order)
        return if b.pages.size < stop then .error (.corruptOrder order) else .ok order
  | .free order =>
      return .error (if Order.count ≤ order then .corruptOrder order else .doubleFree)
  | .tail => return .error .notBlockStart

/-- Frees the block that starts at an address; gives the number of its pages. -/
def free (b : Buddy) (addr : Nat) : Traced (Except FreeError Nat × Buddy) := do
  if ← Address.isAligned addr pageSize then
    match ← b.indexOf? addr with
    | none => return (.error .unknownAddress, b)
    | some index =>
        match ← b.allocatedOrder index with
        | .error reason => return (.error reason, b)
        | .ok order =>
            let b ← b.release index order
            let pages ← Word.shiftLeft 1 order
            let freePages ← Word.add b.freePages pages
            Traced.report (.buddy (.freed order addr))
            return (.ok pages, { b with freePages := freePages })
  else
    return (.error .misaligned, b)

/-- Reports how many pages are free, and the blocks of every order that has some. -/
def list (b : Buddy) : Traced Unit := do
  Traced.report (.buddy (.usage b.range b.freePages b.totalPages))
  (List.range Order.count).forM fun order =>
    if b.freeBlocks order > 0 then
      Traced.report (.buddy (.orderUsage order (b.freeBlocks order)))
    else
      pure ()

end ZonedMemory.Buddy
