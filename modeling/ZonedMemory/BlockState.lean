import ZonedMemory.Text.Record

namespace ZonedMemory

/-!
What the record of a page says about the page's place in its block.
-/

/-- Only the first page of a block names the block's order, and whether the block is free. -/
inductive BlockState where
  | free (order : Nat)
  | allocated (order : Nat)
  /-- Not the first page of its block. -/
  | tail
  deriving DecidableEq

namespace BlockState

def order? : BlockState → Option Nat
  | free order => some order
  | allocated order => some order
  | tail => none

def describe : BlockState → String
  | free order => Text.tagged "Free" (toString order)
  | allocated order => Text.tagged "Allocated" (toString order)
  | tail => "Tail"

/-- The number that stands for the kind of a state in memory. -/
def tag : BlockState → Nat
  | free _ => 0
  | allocated _ => 1
  | tail => 2

/-- The state that a tag and an order stand for. Whatever does not tag a first page is taken for a
page inside a block. -/
def ofTag (tag order : Nat) : BlockState :=
  if tag = 0 then free order
  else if tag = 1 then allocated order
  else tail

end BlockState

end ZonedMemory
