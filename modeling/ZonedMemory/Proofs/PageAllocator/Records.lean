import ZonedMemory.PageAllocator.Records
import ZonedMemory.Proofs.PageAllocator.Zones

namespace ZonedMemory.PageAllocator

/-!
No page record stands in a zone, so the bytes of zones are those of plain memory.
-/

variable {a : PageAllocator} {live : List Block} {addr : Nat}

/-- The records of some zones follow each other without a gap. -/
theorem recordHolder?_eq_none {zones : List Zone} {record first : Nat}
    (beyond : first + (zones.map fun z => z.buddy.totalPages).sum ≤ record) :
    ZoneTable.recordHolder? record first zones = none := by
  induction zones generalizing first with
  | nil => rfl
  | cons z rest ih =>
      rw [List.map_cons, List.sum_cons] at beyond
      rw [ZoneTable.recordHolder?, if_neg (by omega), ih (by omega)]

theorem Sound.recordAt?_eq_none (sound : a.Sound live) (covers : a.Covers addr) :
    a.recordAt? addr = none := by
  obtain ⟨z, member, lower, upper⟩ := covers
  by_cases below : a.metadata.base ≤ addr
  · have clear := sound.housed.clear z member
    have room := sound.housed.records
    have totals : (a.zones.zones.map fun z => z.buddy.totalPages) = a.zones.zones.map Zone.totalPages :=
      List.map_congr_left fun z member => ((sound.serving.sound z member).totalPages).symm
    have beyond : 0 + (a.zones.zones.map fun z => z.buddy.totalPages).sum ≤
        (addr - a.metadata.base) / PageRecord.size := by
      rw [totals, Nat.zero_add, Nat.le_div_iff_mul_le (by decide)]
      omega
    simp only [recordAt?, if_pos below, recordHolder?_eq_none beyond, Option.map_none]
  · rw [recordAt?, if_neg below]

theorem Sound.recordByte?_eq_none (sound : a.Sound live) (covers : a.Covers addr) :
    a.recordByte? addr = none := by
  rw [recordByte?, sound.recordAt?_eq_none covers]
  rfl

end ZonedMemory.PageAllocator
