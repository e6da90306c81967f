import ZonedMemory.ZoneTable.Build

namespace ZonedMemory

/-!
The page allocator. A request names capabilities and a number of pages; a zone is chosen for it,
and the other zones with a matching capability are tried in address order when the chosen one is
too fragmented. Pages are freed by address alone.
-/

structure PageAllocator where
  zones : ZoneTable
  metadata : Range
  config : ZoneConfig

namespace PageAllocator

/-- A page allocator over the usable memory of a map. -/
def create (m : MemoryMap) (translator : Translator) (config : ZoneConfig) :
    Traced (Except InitError PageAllocator × MemoryMap) := do
  match ← ZoneTable.build m translator config with
  | (.error reason, m) => return (.error reason, m)
  | (.ok (zones, metadata), m) =>
      Traced.report (.page (.ready (zones.zones.map Zone.totalPages) metadata))
      return (.ok ⟨zones, metadata, config⟩, m)

/-- Allocates from one zone and counts the success. -/
def allocateFrom (a : PageAllocator) (zone : Zone) (order align : Nat) :
    Traced (Except AllocError Nat × PageAllocator) := do
  match ← zone.allocate order align with
  | (.error reason, zone) => return (.error reason, { a with zones := a.zones.setZone zone })
  | (.ok addr, zone) =>
      let zone := { zone with stats := zone.stats.recordAllocation order }
      Traced.report (.page (.allocated order addr zone.index))
      return (.ok addr, { a with zones := a.zones.setZone zone })

/-- Tries zones one after the other as long as they are out of memory. -/
def allocateAmong (order align : Nat) :
    List Zone → PageAllocator → Traced (Except AllocError Nat × PageAllocator)
  | [], a => return (.error .outOfMemory, a)
  | zone :: rest, a => do
      match ← a.allocateFrom zone order align with
      | (.error .outOfMemory, a) => allocateAmong order align rest a
      | answer => return answer

/-- The zones to try for a request: the preferred one, then all others that match. -/
def candidates (zones : List Zone) (preferred : Option Zone) (flags : ZoneFlags) : List Zone :=
  preferred.toList ++
    zones.filter fun zone =>
      zone.flags.intersects flags && decide (some zone.index ≠ preferred.map Zone.index)

/-- Allocates at least `pages` pages at a multiple of `align` bytes. -/
def allocateAligned (a : PageAllocator) (flags : ZoneFlags) (pages align : Nat) :
    Traced (Except AllocError Nat × PageAllocator) := do
  if pages = 0 then
    return (.error .zeroPages, a)
  else if flags.isEmpty then
    return (.error .emptyCapability, a)
  else
    let order ← Order.ofPages pages
    if Order.count ≤ order then
      return (.error (.orderTooLarge order), a)
    else
      let bytes ← Word.shiftLeft pageSize order
      let (preferred, zones) := a.zones.choose bytes flags
      let a := { a with zones := zones }
      match ← allocateAmong order align (candidates zones.zones preferred flags) a with
      | (.error .outOfMemory, a) =>
          Traced.report (.page (.unavailable flags pages))
          return (.error .outOfMemory, a)
      | answer => return answer

def allocate (a : PageAllocator) (flags : ZoneFlags) (pages : Nat) :
    Traced (Except AllocError Nat × PageAllocator) :=
  a.allocateAligned flags pages pageSize

/-- Frees the block that starts at an address. What cannot be freed is reported and left alone. -/
def free (a : PageAllocator) (addr : Nat) : Traced (Except FreeError Unit × PageAllocator) := do
  match ← a.zones.find addr with
  | (none, zones) =>
      Traced.report (.page (.foreignFree addr))
      return (.error .unknownAddress, { a with zones := zones })
  | (some zone, zones) =>
      match ← zone.free addr with
      | (.ok pages, zone) =>
          let zone := { zone with stats := zone.stats.recordFree pages }
          Traced.report (.page (.freed pages addr zone.index))
          return (.ok (), { a with zones := zones.setZone zone })
      | (.error reason, zone) =>
          Traced.report (.page (.refusedFree addr zone.index reason))
          return (.error reason, { a with zones := zones.setZone zone })

/-- Reports the usage of every zone and, if asked, its free blocks. -/
def list (a : PageAllocator) (blocks : Bool) : Traced Unit := do
  let zones := a.zones.zones
  Traced.report (.page (.usage (zones.map Zone.freePages) (zones.map Zone.totalPages)))
  zones.forM fun zone => zone.list blocks

end PageAllocator

end ZonedMemory
