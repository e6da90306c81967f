import ZonedMemory.Buddy.Basic

namespace ZonedMemory.Buddy

/-!
The chains of free blocks. A chain starts at the head of its list and follows the links of the page
records; blocks are put on and taken off at the head, and one can be taken out of the middle.
-/

/-- Puts a page at the head of a list. -/
def push (b : Buddy) (index order : Nat) : Except Fault Buddy := do
  let list ← b.freeList order
  let b ← b.link index list.head
  let count ← Word.add list.count 1
  b.setFreeList order ⟨some index, count⟩

/-- Takes the page at the head off a list. -/
def pop (b : Buddy) (order : Nat) : Except Fault (Option Nat × Buddy) := do
  let list ← b.freeList order
  match list.head with
  | none => return (none, b)
  | some index =>
      let record ← b.record index
      let count ← Word.sub list.count 1
      let b ← b.setFreeList order ⟨record.next?, count⟩
      let b ← b.link index none
      return (some index, b)

/-- Where a page stands in a chain: the page before it, if any, and the link that follows it. -/
structure Place where
  previous : Option Nat
  next : Option Nat

/-- Walks a chain from `current` in search of a page. A chain without an end is caught by the
number of steps left, since one that ends visits no page twice. -/
def findInChain (b : Buddy) (index : Nat) :
    (steps : Nat) → (previous current : Option Nat) → Except Fault (Option Place)
  | _, _, none => pure none
  | 0, _, some _ => throw .endlessList
  | steps + 1, previous, some candidate => do
      let record ← b.record candidate
      if candidate = index then
        return some ⟨previous, record.next?⟩
      else
        findInChain b index steps (some candidate) record.next?

/-- Takes a page out of a list, wherever it stands in it; says whether the list had it. -/
def unlink (b : Buddy) (index order : Nat) : Except Fault (Bool × Buddy) := do
  let list ← b.freeList order
  match ← b.findInChain index b.pages.size none list.head with
  | none => return (false, b)
  | some place =>
      let head := if place.previous.isSome then list.head else place.next
      let b ←
        match place.previous with
        | some previous => b.link previous place.next
        | none => pure b
      let count ← Word.sub list.count 1
      let b ← b.setFreeList order ⟨head, count⟩
      let b ← b.link index none
      return (true, b)

end ZonedMemory.Buddy
