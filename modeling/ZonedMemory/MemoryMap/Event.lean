import ZonedMemory.Level
import ZonedMemory.MemoryKind
import ZonedMemory.RegionSet

namespace ZonedMemory

/-!
What building and listing a memory map reports. Totals are added up only when the line is written.
-/

inductive MapEvent where
  /-- A range found no room among the ranges of its kind. -/
  | dropped (kind : MemoryKind) (range : Range)
  /-- Taking a range out of usable memory would have needed one range too many. -/
  | notExcluded (kind : MemoryKind) (range : Range)
  | built (usable : RegionSet)
  | listing
  | kindTotal (kind : MemoryKind) (ranges : RegionSet)
  | range (range : Range)

namespace MapEvent

def level : MapEvent → Level
  | dropped .. | notExcluded .. => .warn
  | built .. => .debug
  | listing | kindTotal .. | range .. => .info

def text : MapEvent → Except Fault String
  | dropped kind r => do
      return "memory map: dropping " ++ kind.name ++ " range " ++ (← r.text)
  | notExcluded kind r => do
      return "memory map: could not exclude " ++ kind.name ++ " range " ++ (← r.text) ++
        " from usable memory"
  | built usable => do
      return "memory map: " ++ Text.byteSize (← usable.totalSize) ++ " usable in " ++
        toString usable.size ++ " ranges"
  | listing => return "physical memory map:"
  | kindTotal kind ranges => do
      return "  " ++ kind.name ++ ": " ++ Text.byteSize (← ranges.totalSize)
  | range r => do
      return "    " ++ (← r.text)

end MapEvent

end ZonedMemory
