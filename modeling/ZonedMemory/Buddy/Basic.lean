import ZonedMemory.Order
import ZonedMemory.PageRecord
import ZonedMemory.Range

namespace ZonedMemory

/-!
The buddy: one page-aligned range cut into blocks of `2 ^ order` pages. A block starts at a frame
number that is a multiple of its length, so the other half of the next larger block is found by
flipping one bit of the frame number. Every page has a record, and the free blocks of each order
are chained through the records; the pages themselves are never touched.
-/

/-- The first block of a free list and the number of blocks in it. -/
structure FreeList where
  head : Option Nat
  count : Nat

def FreeList.empty : FreeList := ⟨none, 0⟩

structure Buddy where
  range : Range
  firstFrame : Nat
  /-- One record for each page of the range. -/
  pages : Array PageRecord
  /-- One free list for each order. -/
  lists : Vector FreeList Order.count
  freePages : Nat

namespace Buddy

/-- A buddy without memory. -/
def empty : Buddy where
  range := ⟨0, 0⟩
  firstFrame := 0
  pages := #[]
  lists := Vector.replicate Order.count FreeList.empty
  freePages := 0

def totalPages (b : Buddy) : Nat := b.pages.size

def isEmpty (b : Buddy) : Bool := b.pages.isEmpty

/-- The record of a page. -/
def record (b : Buddy) (index : Nat) : Except Fault PageRecord :=
  match b.pages[index]? with
  | some record => .ok record
  | none => .error (.outOfBounds b.pages.size index)

/-- Changes the record of a page. -/
def changeRecord (b : Buddy) (index : Nat) (change : PageRecord → PageRecord) :
    Except Fault Buddy :=
  if index < b.pages.size then
    .ok { b with pages := b.pages.modify index change }
  else
    .error (.outOfBounds b.pages.size index)

/-- Replaces the state of a page and leaves its link. -/
def tag (b : Buddy) (index : Nat) (state : BlockState) : Except Fault Buddy :=
  b.changeRecord index fun record => record.withState state

/-- Replaces the link of a page and leaves its state. -/
def link (b : Buddy) (index : Nat) (next : Option Nat) : Except Fault Buddy :=
  b.changeRecord index fun record => record.withNext next

def freeList (b : Buddy) (order : Nat) : Except Fault FreeList :=
  if h : order < Order.count then .ok b.lists[order] else .error (.outOfBounds Order.count order)

def setFreeList (b : Buddy) (order : Nat) (list : FreeList) : Except Fault Buddy :=
  if h : order < Order.count then
    .ok { b with lists := b.lists.set order list }
  else
    .error (.outOfBounds Order.count order)

/-- The number of free blocks of an order, none for an order that no block has. -/
def freeBlocks (b : Buddy) (order : Nat) : Nat :=
  if h : order < Order.count then b.lists[order].count else 0

/-- The number of free blocks of every order. -/
def freeBlockCounts (b : Buddy) : List Nat := b.lists.toList.map FreeList.count

/-- The largest order with a free block. -/
def largestFreeOrder? (b : Buddy) : Option Nat :=
  (List.range Order.count).reverse.find? fun order => b.freeBlocks order > 0

/-- The smallest order from `least` on with a free block. -/
def smallestFreeOrder? (b : Buddy) (least : Nat) : Option Nat :=
  (List.range Order.count).find? fun order => least ≤ order && b.freeBlocks order > 0

/-- The index of the page that holds an address. -/
def indexOf? (b : Buddy) (addr : Nat) : Except Fault (Option Nat) := do
  if ← b.range.contains addr then
    let index ← Word.sub (Frame.ofAddress addr) b.firstFrame
    return some index
  else
    return none

/-- The address of the page at an index. -/
def addressOf (b : Buddy) (index : Nat) : Except Fault Nat := do
  Frame.start (← Word.add b.firstFrame index)

/-- The state of the page that holds an address. -/
def blockState? (b : Buddy) (addr : Nat) : Except Fault (Option BlockState) := do
  match ← b.indexOf? addr with
  | none => return none
  | some index => return some (← b.record index).state

def describe (b : Buddy) : String :=
  Text.record "BuddyAllocator"
    [("range", b.range.describe), ("total_pages", toString b.totalPages),
      ("free_pages", toString b.freePages)]

end Buddy

end ZonedMemory
