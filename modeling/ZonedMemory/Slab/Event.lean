import ZonedMemory.Error
import ZonedMemory.Level

namespace ZonedMemory

/-!
What the slab allocator reports.
-/

/-- The pages of one size class and their objects. -/
structure SlabUsage where
  objectSize : Nat
  pages : Nat := 0
  totalObjects : Nat := 0
  freeObjects : Nat := 0

inductive SlabEvent where
  /-- The free object taken from `page` links to `link`, which is no object of the page. -/
  | strayLink (page link freeCount : Nat)
  | allocated (objectSize object : Nat)
  /-- The address to be freed lies in no zone. -/
  | foreignFree (addr : Nat)
  | noHeader (addr page : Nat)
  | badObjectSize (page objectSize : Nat)
  | notObject (addr objectSize : Nat)
  | alreadyFree (addr : Nat)
  | freed (objectSize addr : Nat)
  | tableFull
  | allocatedLarge (size pages addr : Nat)
  | untracked (addr : Nat)
  | refusedLarge (addr : Nat) (reason : FreeError)
  | freedLarge (pages addr : Nat)
  /-- The page claims free objects and its list does not start with an object. -/
  | badFreeList (page freeCount head : Nat)
  | newPage (page objectSize objects : Nat)
  | badPage (objectSize page : Nat)
  | badMagic (page objectSize magic : Nat)
  | listing
  | usage (usage : SlabUsage)
  | largeUsage (live pages : Nat)

namespace SlabEvent

def level : SlabEvent → Level
  | strayLink .. | noHeader .. | badObjectSize .. | refusedLarge .. | badFreeList .. | badPage ..
  | badMagic .. => .error
  | foreignFree .. | notObject .. | alreadyFree .. | tableFull | untracked .. => .warn
  | listing | usage .. | largeUsage .. => .info
  | newPage .. => .debug
  | allocated .. | freed .. | allocatedLarge .. | freedLarge .. => .trace

def text : SlabEvent → Except Fault String
  | strayLink page link freeCount => do
      let dropped ← Word.sub freeCount 1
      return "slab: page " ++ Text.hex page ++ " has free link " ++ Text.groupedHex link ++
        " outside its objects, dropping " ++ toString dropped ++ " free objects"
  | allocated objectSize object =>
      return "slab: allocated " ++ toString objectSize ++ "-byte object at " ++
        Text.groupedHex object
  | foreignFree addr =>
      return "slab: ignoring free of " ++ Text.hex addr ++ ", which belongs to no zone"
  | noHeader addr page =>
      return "slab: refusing free of " ++ Text.hex addr ++ ": page " ++ Text.hex page ++
        " has no valid slab header"
  | badObjectSize page objectSize =>
      return "slab: page " ++ Text.hex page ++ " has invalid object size " ++ toString objectSize
  | notObject addr objectSize =>
      return "slab: ignoring free of " ++ Text.hex addr ++ ": not a " ++ toString objectSize ++
        "-byte object boundary"
  | alreadyFree addr =>
      return "slab: ignoring free of " ++ Text.hex addr ++ ": object is already free"
  | freed objectSize addr =>
      return "slab: freed " ++ toString objectSize ++ "-byte object at " ++ Text.hex addr
  | tableFull => return "slab: cannot track another large allocation"
  | allocatedLarge size pages addr =>
      return "slab: allocated " ++ Text.byteSize size ++ " as " ++ toString pages ++ " pages at " ++
        Text.hex addr
  | untracked addr =>
      return "slab: ignoring free of " ++ Text.hex addr ++ ": not a large allocation"
  | refusedLarge addr reason =>
      return "slab: page allocator refused large allocation at " ++ Text.hex addr ++ ": " ++
        reason.message
  | freedLarge pages addr =>
      return "slab: freed " ++ toString pages ++ " pages at " ++ Text.hex addr
  | badFreeList page freeCount head =>
      return "slab: skipping page " ++ Text.hex page ++ " with " ++ toString freeCount ++
        " free objects and free list head " ++ Text.groupedHex head
  | newPage page objectSize objects =>
      return "slab: new page at " ++ Text.hex page ++ " for " ++ toString objectSize ++
        "-byte objects (" ++ toString objects ++ " objects)"
  | badPage objectSize page =>
      return "slab: " ++ toString objectSize ++ "-byte cache links to invalid page " ++
        Text.hex page
  | badMagic page objectSize magic =>
      return "slab: skipping page " ++ Text.hex page ++ " of " ++ toString objectSize ++
        "-byte cache with bad magic " ++ Text.hex magic
  | listing => return "slab caches:"
  | usage u =>
      return "  " ++ Text.padded 4 u.objectSize ++ " bytes: " ++ toString u.pages ++ " pages, " ++
        toString u.freeObjects ++ "/" ++ toString u.totalObjects ++ " objects free"
  | largeUsage live pages => do
      let bytes ← Word.mul pages pageSize
      return "  large: " ++ toString live ++ " allocations, " ++ Text.byteSize bytes

end SlabEvent

end ZonedMemory
