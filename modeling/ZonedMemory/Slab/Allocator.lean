import ZonedMemory.Slab.Cache
import ZonedMemory.Slab.LargeTable

namespace ZonedMemory

/-!
The slab allocator. A request for at most half a page is met with an object from a page of its size
class; a larger one with whole pages, which are kept in a table so that they can be freed. An
address is freed by what it looks like: page aligned as whole pages, any other as an object of the
slab page around it.
-/

structure SlabAllocator where
  /-- What the pages have to be capable of. -/
  flags : ZoneFlags
  /-- One cache for each size class. -/
  caches : Vector SlabCache SizeClass.count
  large : LargeTable

namespace SlabAllocator

/-- A slab allocator without pages that takes them from zones with the given capabilities. -/
def create (flags : ZoneFlags) : SlabAllocator where
  flags := flags
  caches := Vector.ofFn fun index => SlabCache.empty (SizeClass.smallest <<< index.val)
  large := LargeTable.empty

def cache (s : SlabAllocator) (sizeClass : Nat) : Except Fault SlabCache :=
  if h : sizeClass < SizeClass.count then .ok s.caches[sizeClass]
  else .error (.outOfBounds SizeClass.count sizeClass)

def setCache (s : SlabAllocator) (sizeClass : Nat) (cache : SlabCache) : Except Fault SlabAllocator :=
  if h : sizeClass < SizeClass.count then .ok { s with caches := s.caches.set sizeClass cache }
  else .error (.outOfBounds SizeClass.count sizeClass)

/-- Takes the first free object off a page. The object links to the next one; when that link leads
nowhere in the page, the rest of the list is given up. -/
def takeObject (page objectSize : Nat) (k : Backing) : Traced (Nat × Backing) := do
  let header ← SlabHeader.read k.memory page
  let object := header.freeList
  let next ← k.memory.readWord object
  let intact ← if next = 0 then pure true else header.holdsObject page next
  let memory ←
    if intact then do
      let freeCount ← Word.sub header.freeCount 1
      pure (SlabHeader.writeFreeList k.memory page next freeCount)
    else do
      Traced.report (.slab (.strayLink page next header.freeCount))
      pure (SlabHeader.writeFreeList k.memory page 0 0)
  Traced.report (.slab (.allocated objectSize object))
  return (object, { k with memory := memory })

/-- Allocates an object of a size class, from a new page if no page of the class has one. -/
def allocateObject (s : SlabAllocator) (sizeClass : Nat) (k : Backing) :
    Traced (Except SlabError Nat × SlabAllocator × Backing) := do
  let cache ← s.cache sizeClass
  match ← cache.pageWithSpace k with
  | (some page, k) =>
      let (object, k) ← takeObject page cache.objectSize k
      return (.ok object, s, k)
  | (none, k) =>
      match ← cache.grow s.flags k with
      | (.error reason, _, k) => return (.error (.page reason), s, k)
      | (.ok page, cache, k) =>
          let s ← s.setCache sizeClass cache
          let (object, k) ← takeObject page cache.objectSize k
          return (.ok object, s, k)

/-- Allocates whole pages and enters them into the table. -/
def allocateLarge (s : SlabAllocator) (size : Nat) (k : Backing) :
    Traced (Except SlabError Nat × SlabAllocator × Backing) := do
  let pages := Word.divUp size pageSize
  if s.large.isFull then
    Traced.report (.slab .tableFull)
    return (.error .trackingFull, s, k)
  else
    match ← k.allocate s.flags pages with
    | (.error reason, k) => return (.error (.page reason), s, k)
    | (.ok addr, k) =>
        match ← s.large.insert ⟨addr, pages⟩ with
        | (.error reason, _) => return (.error reason, s, k)
        | (.ok (), large) =>
            Traced.report (.slab (.allocatedLarge size pages addr))
            return (.ok addr, { s with large := large }, k)

def allocate (s : SlabAllocator) (size : Nat) (k : Backing) :
    Traced (Except SlabError Nat × SlabAllocator × Backing) := do
  if SizeClass.largest < size then
    s.allocateLarge size k
  else
    match ← SizeClass.ofSize size with
    | .error reason => return (.error reason, s, k)
    | .ok sizeClass => s.allocateObject sizeClass k

/-- Frees pages that are in the table. The entry comes back if the page allocator refuses them. -/
def freeLarge (s : SlabAllocator) (addr : Nat) (k : Backing) :
    Traced (Except SlabError Unit × SlabAllocator × Backing) := do
  match ← s.large.remove addr with
  | (none, _) =>
      Traced.report (.slab (.untracked addr))
      return (.error .notAllocated, s, k)
  | (some entry, large) =>
      match ← k.free addr with
      | (.ok (), k) =>
          Traced.report (.slab (.freedLarge entry.pages addr))
          return (.ok (), { s with large := large }, k)
      | (.error reason, k) =>
          Traced.report (.slab (.refusedLarge addr reason))
          match ← large.insert entry with
          | (.error reason, large) => return (.error reason, { s with large := large }, k)
          | (.ok (), large) => return (.error .notAllocated, { s with large := large }, k)

/-- Whether `addr` is on the free list of a page, followed from `object` for at most `steps` objects
and no further than it stays among the objects of the page. -/
def onFreeList (header : SlabHeader) (page addr : Nat) (m : Memory) :
    (steps object : Nat) → Except Fault Bool
  | 0, _ => return false
  | steps + 1, object => do
      if ← header.holdsObject page object then
        if object = addr then
          return true
        else
          onFreeList header page addr m steps (← m.readWord object)
      else
        return false

/-- The size of the objects of a page, if its header is that of a slab page. -/
def objectSizeOf (page addr : Nat) (header : SlabHeader) : Traced (Except SlabError Nat) := do
  if header.magic = SlabHeader.validMagic then
    let valid ← match ← SizeClass.ofSize header.objectSize with
      | .error _ => pure false
      | .ok sizeClass => do
          let objectSize ← SizeClass.objectSize sizeClass
          pure (decide (objectSize = header.objectSize))
    if valid then
      return .ok header.objectSize
    else
      Traced.report (.slab (.badObjectSize page header.objectSize))
      return .error (.corrupted page)
  else
    Traced.report (.slab (.noHeader addr page))
    return .error (.corrupted page)

/-- Frees an object of a slab page by putting it in front of the page's free list. -/
def freeObject (addr : Nat) (k : Backing) : Traced (Except SlabError Unit × Backing) := do
  let page ← Address.alignDown addr pageSize
  let header ← SlabHeader.read k.memory page
  match ← objectSizeOf page addr header with
  | .error reason => return (.error reason, k)
  | .ok objectSize =>
      if ← header.holdsObject page addr then
        let unused ←
          if header.totalObjects ≤ header.freeCount then
            pure true
          else
            onFreeList header page addr k.memory header.freeCount header.freeList
        if unused then
          Traced.report (.slab (.alreadyFree addr))
          return (.error .notAllocated, k)
        else
          let memory ← k.memory.writeWord addr header.freeList
          let memory := SlabHeader.writeFreeList memory page addr (header.freeCount + 1)
          Traced.report (.slab (.freed objectSize addr))
          return (.ok (), { k with memory := memory })
      else
        Traced.report (.slab (.notObject addr objectSize))
        return (.error .notSlabObject, k)

/-- Frees what an earlier request returned. -/
def free (s : SlabAllocator) (addr : Nat) (k : Backing) :
    Traced (Except SlabError Unit × SlabAllocator × Backing) := do
  match ← k.zoneOf addr with
  | (none, k) =>
      Traced.report (.slab (.foreignFree addr))
      return (.error .notAllocated, s, k)
  | (some _, k) =>
      if ← Address.isAligned addr pageSize then
        s.freeLarge addr k
      else
        let (result, k) ← freeObject addr k
        return (result, s, k)

def usage (s : SlabAllocator) (sizeClass : Nat) (k : Backing) : Traced (SlabUsage × Backing) := do
  let cache ← s.cache sizeClass
  cache.usage k

def usages (s : SlabAllocator) : List Nat → Backing → Traced (List SlabUsage × Backing)
  | [], k => return ([], k)
  | sizeClass :: rest, k => do
      let (usage, k) ← s.usage sizeClass k
      let (others, k) ← s.usages rest k
      return (usage :: others, k)

/-- Reports the size classes that have pages. -/
def listCaches (s : SlabAllocator) : List Nat → Backing → Traced Backing
  | [], k => return k
  | sizeClass :: rest, k => do
      let (usage, k) ← s.usage sizeClass k
      if usage.pages = 0 then
        s.listCaches rest k
      else
        Traced.report (.slab (.usage usage))
        s.listCaches rest k

/-- Reports the usage of all size classes and of the table. -/
def list (s : SlabAllocator) (k : Backing) : Traced Backing := do
  Traced.report (.slab .listing)
  let k ← s.listCaches (List.range SizeClass.count) k
  let pages ← Word.sum (s.large.entries.map LargeAllocation.pages)
  Traced.report (.slab (.largeUsage s.large.live pages))
  return k

end SlabAllocator

end ZonedMemory
