import ZonedMemory.Address

namespace ZonedMemory.Order

/-!
Block orders. A block of order `k` has `2 ^ k` pages; orders run from zero up to `Order.top`.
-/

def count : Nat := 11

def top : Nat := count - 1

/-- The smallest order whose blocks hold `pages` pages. -/
def ofPages (pages : Nat) : Except Fault Nat :=
  if pages ≤ 1 then
    pure 0
  else do
    let last ← Word.sub pages 1
    pure (Word.bitLength last)

/-- The smallest order whose naturally aligned blocks start at multiples of `align`, rounded up to
a power of two; none if that power is no word. -/
def ofAlignment (align : Nat) : Except Fault (Option Nat) :=
  if align ≤ pageSize then
    pure (some 0)
  else
    match Word.nextPowerOfTwo? align with
    | none => pure none
    | some power => do
        let order ← Word.sub (Word.trailingZeros power 64) pageShift
        pure (some order)

end ZonedMemory.Order
