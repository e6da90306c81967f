import ZonedMemory.MemoryKind
import ZonedMemory.RegionSet
import ZonedMemory.Traced

namespace ZonedMemory

/-!
The memory map: one set of ranges for every kind of memory. It is built from the entries that the
boot protocol reports; what is reported both as usable and as something else is not usable.
-/

structure BootEntry where
  range : Range
  kind : MemoryKind

namespace BootEntry

/-- An entry of a Limine memory map, with the number of its type. -/
def ofLimine (base length type : Nat) : BootEntry := ⟨⟨base, length⟩, .ofLimine type⟩

def isUsable (entry : BootEntry) : Bool := entry.kind == .usable

end BootEntry

structure MemoryMap where
  regions : Vector RegionSet 12

namespace MemoryMap

def empty : MemoryMap := ⟨Vector.replicate 12 RegionSet.empty⟩

def of (m : MemoryMap) (kind : MemoryKind) : RegionSet := m.regions[kind.index]

def set (m : MemoryMap) (kind : MemoryKind) (ranges : RegionSet) : MemoryMap :=
  ⟨m.regions.set kind.index ranges⟩

def usable (m : MemoryMap) : RegionSet := m.of .usable

def insert (m : MemoryMap) (kind : MemoryKind) (range : Range) :
    Except Fault (Except RegionsFull Unit × MemoryMap) := do
  let (result, ranges) ← (m.of kind).add range
  return (result, m.set kind ranges)

def remove (m : MemoryMap) (kind : MemoryKind) (range : Range) :
    Except Fault (Except RegionsFull Unit × MemoryMap) := do
  let (result, ranges) ← (m.of kind).subtract range
  return (result, m.set kind ranges)

/-- Moves a range from one kind to another. Nothing is added when the removal is refused. -/
def reclassify (m : MemoryMap) (range : Range) (source target : MemoryKind) :
    Except Fault (Except RegionsFull Unit × MemoryMap) := do
  match ← m.remove source range with
  | (.error refusal, m) => return (.error refusal, m)
  | (.ok (), m) => m.insert target range

/-- The first kind, in the order of `MemoryKind.all`, that has an address. -/
def kindAmong (m : MemoryMap) (addr : Nat) : List MemoryKind → Except Fault (Option MemoryKind)
  | [] => pure none
  | kind :: rest => do
      if (← (m.of kind).find? addr).isSome then return some kind else m.kindAmong addr rest

/-- The kind of the memory at an address, if the map covers it. -/
def kindOf? (m : MemoryMap) (addr : Nat) : Except Fault (Option MemoryKind) :=
  m.kindAmong addr MemoryKind.all

def total (m : MemoryMap) (kind : MemoryKind) : Except Fault Nat := (m.of kind).totalSize

/-- Enters the reported ranges one by one; a range without room is reported and left out. -/
def classify : List BootEntry → MemoryMap → Traced MemoryMap
  | [], m => return m
  | entry :: rest, m => do
      match ← m.insert entry.kind entry.range with
      | (.ok (), m) => classify rest m
      | (.error _, m) =>
          Traced.report (.map (.dropped entry.kind entry.range))
          classify rest m

/-- Takes ranges of another kind out of usable memory. -/
def exclude (kind : MemoryKind) : List Range → MemoryMap → Traced MemoryMap
  | [], m => return m
  | range :: rest, m => do
      match ← m.remove .usable range with
      | (.ok (), m) => exclude kind rest m
      | (.error _, m) =>
          Traced.report (.map (.notExcluded kind range))
          exclude kind rest m

/-- Takes the ranges of all kinds listed out of usable memory, kind by kind. -/
def excludeAll : List MemoryKind → MemoryMap → Traced MemoryMap
  | [], m => return m
  | kind :: rest, m => do
      let m ← if kind = .usable then pure m else exclude kind (m.of kind).ranges m
      excludeAll rest m

/-- The map of what the boot protocol reports, in any order. -/
def ofBootEntries (entries : List BootEntry) : Traced MemoryMap := do
  let m ← classify entries empty
  let m ← excludeAll MemoryKind.all m
  Traced.report (.map (.built m.usable))
  return m

def list (m : MemoryMap) : Traced Unit := do
  Traced.report (.map .listing)
  MemoryKind.all.forM fun kind => do
    let ranges := m.of kind
    if ranges.isEmpty then
      pure ()
    else
      Traced.report (.map (.kindTotal kind ranges))
      ranges.ranges.forM fun range => Traced.report (.map (.range range))

end MemoryMap

end ZonedMemory
