import ZonedMemory.Error

namespace ZonedMemory

/-!
The table of page-granular allocations of a slab allocator. It has a fixed number of slots; an
entry takes the first empty one.
-/

/-- A live allocation of whole pages. -/
structure LargeAllocation where
  addr : Nat
  pages : Nat

structure LargeTable where
  slots : List (Option LargeAllocation)
  live : Nat

namespace LargeTable

def capacity : Nat := 256

def empty : LargeTable := ⟨List.replicate capacity none, 0⟩

def isFull (t : LargeTable) : Bool := t.live == capacity

/-- The live allocations in the order of their slots. -/
def entries (t : LargeTable) : List LargeAllocation := t.slots.filterMap id

/-- Enters an allocation into the first empty slot. -/
def insert (t : LargeTable) (entry : LargeAllocation) :
    Except Fault (Except SlabError Unit × LargeTable) :=
  match t.slots.findIdx? Option.isNone with
  | none => return (.error .trackingFull, t)
  | some slot => do
      let live ← Word.add t.live 1
      return (.ok (), ⟨t.slots.set slot (some entry), live⟩)

def remove (t : LargeTable) (addr : Nat) : Except Fault (Option LargeAllocation × LargeTable) :=
  match t.slots.findIdx? (fun slot => slot.any fun entry => entry.addr == addr) with
  | none => return (none, t)
  | some slot => do
      let live ← Word.sub t.live 1
      return (t.slots[slot]?.join, ⟨t.slots.set slot none, live⟩)

end LargeTable

end ZonedMemory
