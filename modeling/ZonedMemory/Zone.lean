import ZonedMemory.Buddy.Allocate
import ZonedMemory.ZoneFlags
import ZonedMemory.ZoneStats

namespace ZonedMemory

/-!
A zone: a range of memory with one set of capabilities and a buddy of its own.
-/

structure Zone where
  /-- The place of the zone in its table. -/
  index : Nat
  range : Range
  flags : ZoneFlags
  totalPages : Nat
  /-- The buddy's count of free pages as of the last success. -/
  freePages : Nat
  buddy : Buddy
  stats : ZoneStats

namespace Zone

/-- A zone over the memory of a buddy. -/
def ofBuddy (index : Nat) (flags : ZoneFlags) (buddy : Buddy) : Zone where
  index := index
  range := buddy.range
  flags := flags
  totalPages := buddy.totalPages
  freePages := buddy.freePages
  buddy := buddy
  stats := {}

def contains (z : Zone) (addr : Nat) : Except Fault Bool := z.range.contains addr

/-- The zone has a capability asked for and at least so many free pages. -/
def qualifies (z : Zone) (flags : ZoneFlags) (pages : Nat) : Bool :=
  z.flags.intersects flags && decide (pages ≤ z.freePages)

/-- Allocates `2 ^ order` pages at a multiple of `align` bytes. -/
def allocate (z : Zone) (order align : Nat) : Traced (Except AllocError Nat × Zone) := do
  match ← z.buddy.allocate order align with
  | (.ok addr, buddy) => return (.ok addr, { z with buddy := buddy, freePages := buddy.freePages })
  | (.error reason, buddy) => return (.error reason, { z with buddy := buddy })

/-- Frees the block that starts at an address; gives the number of its pages. -/
def free (z : Zone) (addr : Nat) : Traced (Except FreeError Nat × Zone) := do
  match ← z.buddy.free addr with
  | (.ok pages, buddy) => return (.ok pages, { z with buddy := buddy, freePages := buddy.freePages })
  | (.error reason, buddy) => return (.error reason, { z with buddy := buddy })

/-- Reports the zone's usage and counters and, if asked, its free blocks. -/
def list (z : Zone) (blocks : Bool) : Traced Unit := do
  Traced.report (.zone (.usage z.index z.flags z.range z.freePages z.totalPages))
  Traced.report (.zone (.counters z.stats))
  if blocks then z.buddy.list else pure ()

def describe (z : Zone) : String :=
  Text.record "Zone"
    [("index", toString z.index), ("range", z.range.describe), ("flags", z.flags.describe),
      ("total_pages", toString z.totalPages), ("free_pages", toString z.freePages)]

end Zone

end ZonedMemory
