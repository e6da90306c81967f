import ZonedMemory.PageAllocator

namespace ZonedMemory

/-!
Where the page records stand in memory: one after the other from the start of the metadata range,
zone by zone. The buddies hold the records; a byte of the range that belongs to one is read from it
and written to it.
-/

namespace ZoneTable

/-- Among zones that start with record `first`, the one with the record of the given number, and the
index of the record's page in it. -/
def recordHolder? (record : Nat) : (first : Nat) → List Zone → Option (Zone × Nat)
  | _, [] => none
  | first, zone :: rest =>
      if record < first + zone.buddy.totalPages then some (zone, record - first)
      else recordHolder? record (first + zone.buddy.totalPages) rest

end ZoneTable

namespace PageAllocator

/-- The zone and the page whose record an address belongs to, and the place of the byte in the
record. -/
def recordAt? (a : PageAllocator) (addr : Nat) : Option (Zone × Nat × Nat) :=
  if a.metadata.base ≤ addr then
    let offset := addr - a.metadata.base
    (ZoneTable.recordHolder? (offset / PageRecord.size) 0 a.zones.zones).map fun (zone, index) =>
      (zone, index, offset % PageRecord.size)
  else
    none

/-- The byte of a record at an address. -/
def recordByte? (a : PageAllocator) (addr : Nat) : Option UInt8 :=
  (a.recordAt? addr).bind fun (zone, index, place) =>
    zone.buddy.pages[index]?.map fun record => record.byte place

/-- Replaces the byte of a record at an address. -/
def setRecordByte? (a : PageAllocator) (addr : Nat) (value : UInt8) : Option PageAllocator :=
  (a.recordAt? addr).map fun (zone, index, place) =>
    let pages := zone.buddy.pages.modify index fun record => record.setByte place value
    let zone := { zone with buddy := { zone.buddy with pages := pages } }
    { a with zones := a.zones.setZone zone }

end PageAllocator

end ZonedMemory
