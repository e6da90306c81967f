import ZonedMemory.Zone

namespace ZonedMemory

/-!
The zone table: the zones in address order, looked up by capability or by address. Each kind of
look-up remembers its last finds and tries them first.
-/

structure ZoneTable where
  zones : List Zone
  /-- For every capability bit, the zone last chosen for requests with this lowest bit. -/
  chosen : Vector (Option Nat) 8
  /-- The zone last found by address. -/
  found : Option Nat

namespace ZoneTable

/-- The most zones that a table can hold. -/
def capacity : Nat := 32

def ofZones (zones : List Zone) : ZoneTable := ⟨zones, Vector.replicate 8 none, none⟩

def size (t : ZoneTable) : Nat := t.zones.length

def isEmpty (t : ZoneTable) : Bool := t.zones.isEmpty

def totalPages (t : ZoneTable) : Except Fault Nat := Word.sum (t.zones.map Zone.totalPages)

def freePages (t : ZoneTable) : Except Fault Nat := Word.sum (t.zones.map Zone.freePages)

/-- Puts a changed zone back into its place. -/
def setZone (t : ZoneTable) (zone : Zone) : ZoneTable :=
  { t with zones := t.zones.set zone.index zone }

/-- The zone that a look-up remembers. -/
def remembered (t : ZoneTable) (slot : Option Nat) : Option Zone :=
  slot.bind fun index => t.zones[index]?

/-- The zone with the most free pages, the first one among equals. -/
def roomiest (zones : List Zone) : Option Zone :=
  zones.foldl
    (fun best zone =>
      match best with
      | none => some zone
      | some leader => if zone.freePages > leader.freePages then some zone else best)
    none

/-- A zone that has a capability asked for and room for so many bytes, at least a page: the one
chosen last for the same lowest capability bit while it qualifies, else the roomiest. -/
def choose (t : ZoneTable) (bytes : Nat) (flags : ZoneFlags) : Option Zone × ZoneTable :=
  if h : flags.lowestBit < 8 then
    let pages := max (Word.divUp bytes pageSize) 1
    match (t.remembered t.chosen[flags.lowestBit]).filter (Zone.qualifies · flags pages) with
    | some zone => (some zone, t)
    | none =>
        match roomiest (t.zones.filter (Zone.qualifies · flags pages)) with
        | some zone =>
            (some zone, { t with chosen := t.chosen.set flags.lowestBit (some zone.index) })
        | none => (none, t)
  else
    (none, t)

/-- Looks for the zone that holds an address, past what is remembered. -/
def search (t : ZoneTable) (addr : Nat) : Except Fault (Option Zone × ZoneTable) := do
  let index ← Search.partitionPoint (fun zone => do return decide ((← zone.range.stop) ≤ addr)) t.zones
  match t.zones[index]? with
  | none => return (none, t)
  | some zone =>
      if ← zone.contains addr then
        return (some zone, { t with found := some index })
      else
        return (none, t)

/-- The zone that holds an address: the one found last if it does, else whichever does. -/
def find (t : ZoneTable) (addr : Nat) : Except Fault (Option Zone × ZoneTable) := do
  match t.remembered t.found with
  | none => t.search addr
  | some zone => if ← zone.contains addr then return (some zone, t) else t.search addr

end ZoneTable

end ZonedMemory
