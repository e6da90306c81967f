import ZonedMemory.Text.Record

namespace ZonedMemory

/-!
Counters of one zone: what has been allocated from it and freed to it since it was built.
-/

structure ZoneStats where
  allocations : Nat := 0
  frees : Nat := 0
  pagesAllocated : Nat := 0
  pagesFreed : Nat := 0
  /-- The order of the latest allocation, zero before the first. -/
  lastOrder : Nat := 0

namespace ZoneStats

def recordAllocation (s : ZoneStats) (order : Nat) : ZoneStats :=
  { s with
    allocations := s.allocations + 1
    pagesAllocated := s.pagesAllocated + (1 <<< order)
    lastOrder := order }

def recordFree (s : ZoneStats) (pages : Nat) : ZoneStats :=
  { s with frees := s.frees + 1, pagesFreed := s.pagesFreed + pages }

def describe (s : ZoneStats) : String :=
  Text.record "ZoneStatsSnapshot"
    [("alloc_count", toString s.allocations), ("free_count", toString s.frees),
      ("pages_allocated", toString s.pagesAllocated), ("pages_freed", toString s.pagesFreed),
      ("last_alloc_order", toString s.lastOrder)]

end ZoneStats

end ZonedMemory
