import ZonedMemory.PageAllocator
import ZonedMemory.Slab.Header
import ZonedMemory.Slab.SizeClass

namespace ZonedMemory

/-!
The cache of one size class: a list of slab pages, linked through their headers. Headers lie in
memory that anyone may overwrite, so a walk along the pages trusts no link: it leaves out pages
without a valid magic, and ends at a link that leads to no page of a zone and after as many pages as
the cache has.
-/

/-- What slab allocators draw on: the page allocator and the memory behind it. -/
structure Backing where
  pages : PageAllocator
  memory : Memory

structure SlabCache where
  objectSize : Nat
  /-- The first page, or `SlabHeader.noPage`. -/
  firstPage : Nat
  pageCount : Nat

namespace Backing

def zoneOf (k : Backing) (addr : Nat) : Except Fault (Option Zone × Backing) := do
  let (zone, zones) ← k.pages.zones.find addr
  return (zone, { k with pages := { k.pages with zones := zones } })

/-- Whether a link can lead to a slab page: it is page aligned and lies in a zone. -/
def isPage (k : Backing) (addr : Nat) : Except Fault (Bool × Backing) := do
  if ← Address.isAligned addr pageSize then
    let (zone, k) ← k.zoneOf addr
    return (zone.isSome, k)
  else
    return (false, k)

def allocate (k : Backing) (flags : ZoneFlags) (pages : Nat) :
    Traced (Except AllocError Nat × Backing) := do
  let (result, allocator) ← k.pages.allocate flags pages
  return (result, { k with pages := allocator })

def free (k : Backing) (addr : Nat) : Traced (Except FreeError Unit × Backing) := do
  let (result, allocator) ← k.pages.free addr
  return (result, { k with pages := allocator })

end Backing

namespace SlabCache

def empty (objectSize : Nat) : SlabCache := ⟨objectSize, SlabHeader.noPage, 0⟩

/-- Shows the pages from `link` on, at most `steps` of them, to `visit`, which updates a state and
says whether to stop. -/
def walkFrom {σ : Type} (objectSize : Nat) (visit : σ → Nat → SlabHeader → Traced (σ × Bool)) :
    (steps link : Nat) → σ → Backing → Traced (σ × Backing)
  | 0, _, state, k => return (state, k)
  | steps + 1, link, state, k => do
      if link = SlabHeader.noPage then
        return (state, k)
      else
        match ← k.isPage link with
        | (false, k) =>
            Traced.report (.slab (.badPage objectSize link))
            return (state, k)
        | (true, k) =>
            let header ← SlabHeader.read k.memory link
            if header.magic = SlabHeader.validMagic then
              match ← visit state link header with
              | (state, true) => return (state, k)
              | (state, false) => walkFrom objectSize visit steps header.nextPage state k
            else
              Traced.report (.slab (.badMagic link objectSize header.magic))
              walkFrom objectSize visit steps header.nextPage state k

def walk {σ : Type} (c : SlabCache) (visit : σ → Nat → SlabHeader → Traced (σ × Bool)) (state : σ)
    (k : Backing) : Traced (σ × Backing) :=
  walkFrom c.objectSize visit c.pageCount c.firstPage state k

/-- Whether an object can be taken from a page: it has free ones and its list starts with one. -/
def visitForSpace (_ : Option Nat) (page : Nat) (header : SlabHeader) :
    Traced (Option Nat × Bool) := do
  if header.freeCount = 0 then
    return (none, false)
  else if ← header.holdsObject page header.freeList then
    return (some page, true)
  else
    Traced.report (.slab (.badFreeList page header.freeCount header.freeList))
    return (none, false)

/-- The first page of the cache from which an object can be taken. -/
def pageWithSpace (c : SlabCache) (k : Backing) : Traced (Option Nat × Backing) :=
  c.walk visitForSpace none k

/-- Adds the objects of a page to the usage of its cache. -/
def visitForUsage (usage : SlabUsage) (_ : Nat) (header : SlabHeader) :
    Traced (SlabUsage × Bool) := do
  let pages ← Word.add usage.pages 1
  let totalObjects ← Word.add usage.totalObjects header.totalObjects
  let freeObjects ← Word.add usage.freeObjects header.freeCount
  return ({ usage with pages := pages, totalObjects := totalObjects, freeObjects := freeObjects },
    false)

def usage (c : SlabCache) (k : Backing) : Traced (SlabUsage × Backing) :=
  c.walk visitForUsage { objectSize := c.objectSize } k

/-- Chains the last `left` of the `total` objects of a page, each to the one after it. -/
def chainObjects (first objectSize total : Nat) : (left : Nat) → Memory → Except Fault Memory
  | 0, m => return m
  | left + 1, m => do
      let index := total - (left + 1)
      let object ← Word.add first (← Word.mul index objectSize)
      let next ← if index + 1 < total then Word.add object objectSize else pure 0
      let m ← m.writeWord object next
      chainObjects first objectSize total left m

/-- Takes a new page, cuts it into free objects, lowest first, and puts it in front of the
others. -/
def grow (c : SlabCache) (flags : ZoneFlags) (k : Backing) :
    Traced (Except AllocError Nat × SlabCache × Backing) := do
  match ← k.allocate flags 1 with
  | (.error reason, k) => return (.error reason, c, k)
  | (.ok page, k) =>
      let first ← Word.add page (← SlabHeader.firstObject c.objectSize)
      let total ← SlabHeader.objectsPerPage c.objectSize
      let memory ← chainObjects first c.objectSize total total k.memory
      let memory ← SlabHeader.write memory page {
        magic := SlabHeader.validMagic
        objectSize := c.objectSize
        totalObjects := total
        freeCount := total
        nextPage := c.firstPage
        freeList := first }
      let pageCount ← Word.add c.pageCount 1
      Traced.report (.slab (.newPage page c.objectSize total))
      return (.ok page, { c with firstPage := page, pageCount := pageCount },
        { k with memory := memory })

end SlabCache

end ZonedMemory
