import ZonedMemory.Level
import ZonedMemory.Range
import ZonedMemory.ZoneFlags
import ZonedMemory.ZoneStats

namespace ZonedMemory

/-!
What building and listing zones reports.
-/

inductive ZoneEvent where
  /-- So many bytes of records for so many pages were placed at `range`. -/
  | metadata (required pages : Nat) (range : Range)
  /-- The memory map had no room to show where the records are. -/
  | unrecorded (range : Range)
  | built (index : Nat) (flags : ZoneFlags) (range : Range)
  | usage (index : Nat) (flags : ZoneFlags) (range : Range) (free total : Nat)
  | counters (stats : ZoneStats)

namespace ZoneEvent

def level : ZoneEvent → Level
  | metadata .. | built .. => .debug
  | unrecorded .. => .warn
  | usage .. | counters .. => .info

def text : ZoneEvent → Except Fault String
  | metadata required pages range => do
      return "zones: " ++ Text.byteSize required ++ " of metadata for " ++ toString pages ++
        " pages at " ++ (← range.text)
  | unrecorded range => do
      return "zones: memory map too full to record allocator metadata at " ++ (← range.text)
  | built index flags range => do
      return "zones: zone " ++ toString index ++ " " ++ flags.describe ++ " at " ++ (← range.text)
  | usage index flags range free total => do
      let freeBytes ← Word.mul free pageSize
      let totalBytes ← Word.mul total pageSize
      return "zone " ++ toString index ++ " " ++ flags.describe ++ ": " ++ (← range.text) ++ " - " ++
        Text.byteSize freeBytes ++ " of " ++ Text.byteSize totalBytes ++ " free"
  | counters stats =>
      return "  " ++ toString stats.allocations ++ " allocations (" ++
        toString stats.pagesAllocated ++ " pages), " ++ toString stats.frees ++ " frees (" ++
        toString stats.pagesFreed ++ " pages), last order " ++ toString stats.lastOrder

end ZoneEvent

end ZonedMemory
