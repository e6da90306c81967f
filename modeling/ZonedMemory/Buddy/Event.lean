import ZonedMemory.Level
import ZonedMemory.Range

namespace ZonedMemory

/-!
What a buddy reports. A block is named by the first frame of the range and the index of a page; its
address is worked out only when the line is written.
-/

inductive BuddyEvent where
  /-- The block at `index`, of the given order, was split in two. -/
  | split (order first index : Nat)
  /-- The block at `addr`, found in the list of order `found`, lacks the alignment asked for. -/
  | missedAlignment (addr found alignOrder : Nat)
  | allocated (order addr : Nat)
  | freed (order addr : Nat)
  /-- A page is tagged as a free block and its list does not have it. -/
  | missing (order first index : Nat)
  | merged (order first index : Nat)
  | usage (range : Range) (free total : Nat)
  | orderUsage (order blocks : Nat)

namespace BuddyEvent

def level : BuddyEvent → Level
  | split .. | allocated .. | freed .. | merged .. => .trace
  | missedAlignment .. | missing .. => .error
  | usage .. | orderUsage .. => .info

/-- The address of a page of the range that starts with frame `first`. -/
def pageText (first index : Nat) : Except Fault String := do
  let frame ← Word.add first index
  return Text.hex (← Frame.start frame)

def text : BuddyEvent → Except Fault String
  | split order first index => do
      return "buddy: split order " ++ toString order ++ " block at " ++ (← pageText first index)
  | missedAlignment addr found alignOrder => do
      let align ← Word.shiftLeft 1 (← Word.add alignOrder pageShift)
      return "buddy: block at " ++ Text.hex addr ++ " from order " ++ toString found ++ " misses " ++
        Text.byteSize align ++ " alignment"
  | allocated order addr =>
      return "buddy: allocated order " ++ toString order ++ " block at " ++ Text.hex addr
  | freed order addr =>
      return "buddy: freed order " ++ toString order ++ " block at " ++ Text.hex addr
  | missing order first index => do
      return "buddy: order " ++ toString order ++ " block at " ++ (← pageText first index) ++
        " is tagged free but missing from its list"
  | merged order first index => do
      return "buddy: merged into order " ++ toString order ++ " block at " ++
        (← pageText first index)
  | usage range free total => do
      return "buddy " ++ (← range.text) ++ ": " ++ toString free ++ " of " ++ toString total ++
        " pages free"
  | orderUsage order blocks => do
      let bytes ← Word.shiftLeft pageSize order
      return "  order " ++ Text.padded 2 order ++ ": " ++ Text.padded 5 blocks ++ " blocks of " ++
        Text.byteSize bytes

end BuddyEvent

end ZonedMemory
