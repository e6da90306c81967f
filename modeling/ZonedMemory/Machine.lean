import ZonedMemory.PageAllocator.Records
import ZonedMemory.Slab.Allocator

namespace ZonedMemory

/-!
A machine: the memory map, the page allocator over its usable memory, and slab allocators that
share the page allocator and the memory behind it. Zones and slab allocators are named by their
places; a request to one that does not exist has no answer.
-/

structure Machine where
  map : MemoryMap
  backing : Backing
  slabs : List SlabAllocator

namespace Machine

/-- A machine over the usable memory of a map, with zeroed memory behind a window. A slab allocator
without flags of its own takes those of the configuration. -/
def boot (map : MemoryMap) (window : Window) (config : ZoneConfig)
    (slabFlags : List (Option ZoneFlags)) : Traced (Except InitError Machine × MemoryMap) := do
  match ← PageAllocator.create map (.window window) config with
  | (.error reason, map) => return (.error reason, map)
  | (.ok pages, map) =>
      let backing : Backing := ⟨pages, Memory.zeroed (.window window)⟩
      let slabs := slabFlags.map fun flags => SlabAllocator.create (flags.getD config.slabZone)
      return (.ok ⟨map, backing, slabs⟩, map)

def pages (m : Machine) : PageAllocator := m.backing.pages

def zones (m : Machine) : List Zone := m.pages.zones.zones

def setPages (m : Machine) (pages : PageAllocator) : Machine :=
  { m with backing := { m.backing with pages := pages } }

def setTable (m : Machine) (table : ZoneTable) : Machine :=
  m.setPages { m.pages with zones := table }

def setMemory (m : Machine) (memory : Memory) : Machine :=
  { m with backing := { m.backing with memory := memory } }

/-- Allocates pages, at a multiple of `align` bytes if that is given. -/
def allocatePages (m : Machine) (flags : ZoneFlags) (count : Nat) (align : Option Nat) :
    Traced (Except AllocError Nat × Machine) := do
  let (result, pages) ←
    match align with
    | some align => m.pages.allocateAligned flags count align
    | none => m.pages.allocate flags count
  return (result, m.setPages pages)

def freePages (m : Machine) (addr : Nat) : Traced (Except FreeError Unit × Machine) := do
  let (result, pages) ← m.pages.free addr
  return (result, m.setPages pages)

/-- Allocates from one zone, past the page allocator. -/
def allocateInZone (m : Machine) (zone : Zone) (order align : Nat) :
    Traced (Except AllocError Nat × Machine) := do
  let (result, zone) ← zone.allocate order align
  return (result, m.setTable (m.pages.zones.setZone zone))

/-- Frees to one zone, past the page allocator. -/
def freeInZone (m : Machine) (zone : Zone) (addr : Nat) :
    Traced (Except FreeError Nat × Machine) := do
  let (result, zone) ← zone.free addr
  return (result, m.setTable (m.pages.zones.setZone zone))

/-- The zone that a request for so many bytes would be tried in first. -/
def zoneFor (m : Machine) (bytes : Nat) (flags : ZoneFlags) : Option Zone × Machine :=
  let (zone, table) := m.pages.zones.choose bytes flags
  (zone, m.setTable table)

def zoneOf (m : Machine) (addr : Nat) : Except Fault (Option Zone × Machine) := do
  let (zone, table) ← m.pages.zones.find addr
  return (zone, m.setTable table)

/-- Puts a slab allocator and what it draws on back into their places. -/
def setSlab (m : Machine) (slab : Nat) (allocator : SlabAllocator) (backing : Backing) : Machine :=
  { m with slabs := m.slabs.set slab allocator, backing := backing }

def slabAllocate (m : Machine) (slab size : Nat) :
    Traced (Option (Except SlabError Nat) × Machine) := do
  match m.slabs[slab]? with
  | none => return (none, m)
  | some allocator =>
      let (result, allocator, backing) ← allocator.allocate size m.backing
      return (some result, m.setSlab slab allocator backing)

/-- Frees what a slab allocator has given out. -/
def slabFree (m : Machine) (slab addr : Nat) :
    Traced (Option (Except SlabError Unit) × Machine) := do
  match m.slabs[slab]? with
  | none => return (none, m)
  | some allocator =>
      let (result, allocator, backing) ← allocator.free addr m.backing
      return (some result, m.setSlab slab allocator backing)

/-- The usage of some size classes of a slab allocator. -/
def slabUsages (m : Machine) (slab : Nat) (sizeClasses : List Nat) :
    Traced (Option (List SlabUsage) × Machine) := do
  match m.slabs[slab]? with
  | none => return (none, m)
  | some allocator =>
      let (usages, backing) ← allocator.usages sizeClasses m.backing
      return (some usages, { m with backing := backing })

def slabList (m : Machine) (slab : Nat) : Traced (Option Unit × Machine) := do
  match m.slabs[slab]? with
  | none => return (none, m)
  | some allocator =>
      let backing ← allocator.list m.backing
      return (some (), { m with backing := backing })

/-- The byte at an address: a byte of a page record where one stands, else of plain memory. Slab
allocators use the pages of zones only, where no record stands. -/
def byte (m : Machine) (addr : Nat) : UInt8 :=
  (m.pages.recordByte? addr).getD (m.backing.memory.byte addr)

def setByte (m : Machine) (addr : Nat) (value : UInt8) : Machine :=
  match m.pages.setRecordByte? addr value with
  | some pages => m.setPages pages
  | none => m.setMemory (m.backing.memory.setByte addr value)

def setBytes (m : Machine) (addr : Nat) : List UInt8 → Machine
  | [] => m
  | value :: rest => (m.setByte addr value).setBytes (addr + 1) rest

def peek (m : Machine) (addr length : Nat) : Except Fault (List UInt8) := do
  m.backing.memory.reachStretch addr length
  return (List.range length).map fun place => m.byte (addr + place)

/-- Stores the lowest `width` bytes of a number in a stretch. -/
def poke (m : Machine) (addr width value : Nat) : Except Fault Machine := do
  m.backing.memory.reachStretch addr width
  return m.setBytes addr (Bytes.ofNumber value width)

/-- Sets all bytes of a stretch to one value. -/
def fill (m : Machine) (addr length : Nat) (value : UInt8) : Except Fault Machine := do
  m.backing.memory.reachStretch addr length
  return m.setBytes addr (List.replicate length value)

/-- The first of some zones that holds an address. -/
def holder (addr : Nat) : List Zone → Except Fault (Option Zone)
  | [] => pure none
  | zone :: rest => do
      if ← zone.contains addr then return some zone else holder addr rest

/-- Overwrites the state in the record of the page that holds an address. -/
def tagPage (m : Machine) (addr : Nat) (state : BlockState) :
    Except Fault (Option Machine) := do
  match ← holder addr m.zones with
  | none => return none
  | some zone =>
      match ← zone.buddy.indexOf? addr with
      | none => return none
      | some index =>
          let buddy ← zone.buddy.tag index state
          return some (m.setTable (m.pages.zones.setZone { zone with buddy := buddy }))

end Machine

end ZonedMemory
