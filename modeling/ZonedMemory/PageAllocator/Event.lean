import ZonedMemory.Error
import ZonedMemory.Level
import ZonedMemory.Range
import ZonedMemory.ZoneFlags

namespace ZonedMemory

/-!
What the page allocator reports. Page counts of several zones are added up only when the line is
written.
-/

inductive PageEvent where
  /-- The zones, with these page counts, are ready. -/
  | ready (zonePages : List Nat) (metadata : Range)
  | unavailable (flags : ZoneFlags) (pages : Nat)
  | allocated (order addr zone : Nat)
  /-- The address to be freed lies in no zone. -/
  | foreignFree (addr : Nat)
  | freed (pages addr zone : Nat)
  | refusedFree (addr zone : Nat) (reason : FreeError)
  | usage (zoneFree zonePages : List Nat)

namespace PageEvent

def level : PageEvent → Level
  | ready .. | usage .. => .info
  | unavailable .. => .debug
  | allocated .. | freed .. => .trace
  | foreignFree .. | refusedFree .. => .warn

/-- The bytes of as many pages as the counts add up to. -/
def bytesOf (counts : List Nat) : Except Fault Nat := do
  Word.mul (← Word.sum counts) pageSize

def text : PageEvent → Except Fault String
  | ready zonePages metadata => do
      return "physical memory: " ++ Text.byteSize (← bytesOf zonePages) ++ " in " ++
        toString zonePages.length ++ " zones, " ++ Text.byteSize metadata.size ++
        " of metadata at " ++ Text.groupedHex metadata.base
  | unavailable flags pages =>
      return "pmm: no " ++ flags.describe ++ " zone can provide " ++ toString pages ++ " pages"
  | allocated order addr zone => do
      let pages ← Word.shiftLeft 1 order
      return "pmm: allocated " ++ toString pages ++ " pages at " ++ Text.hex addr ++
        " from zone " ++ toString zone
  | foreignFree addr =>
      return "pmm: ignoring free of " ++ Text.hex addr ++ ", which belongs to no zone"
  | freed pages addr zone =>
      return "pmm: freed " ++ toString pages ++ " pages at " ++ Text.hex addr ++ " to zone " ++
        toString zone
  | refusedFree addr zone reason =>
      return "pmm: ignoring free of " ++ Text.hex addr ++ " in zone " ++ toString zone ++ ": " ++
        reason.message
  | usage zoneFree zonePages => do
      let free ← bytesOf zoneFree
      let total ← bytesOf zonePages
      return "physical memory: " ++ Text.byteSize free ++ " of " ++ Text.byteSize total ++ " free"

end PageEvent

end ZonedMemory
