import Mathlib.Data.List.Nodup
import Mathlib.Tactic.IntervalCases
import ZonedMemory.Proofs.Order
import ZonedMemory.Slab.Header
import ZonedMemory.Slab.SizeClass

namespace ZonedMemory

/-!
How a page is cut up. The objects of a class are of one power of two in size, and the first of them
stands at a multiple of it past the header, so all of them do.
-/

namespace SizeClass

def bytes (index : Nat) : Nat := smallest * 2 ^ index

def holding (size : Nat) : Nat := Nat.clog 2 (max size smallest) - 3

/-- The distance of the first object of a page from the start of the page. -/
def first (index : Nat) : Nat := max SlabHeader.size (bytes index)

def objects (index : Nat) : Nat := (pageSize - first index) / bytes index

variable {index size : Nat}

theorem smallest_order (size : Nat) : 3 ≤ Nat.clog 2 (max size smallest) := by
  by_contra less
  have := (Nat.clog_le_iff_le_pow (by decide)).mp (show Nat.clog 2 (max size smallest) ≤ 2 by omega)
  have : smallest ≤ max size smallest := Nat.le_max_right ..
  have : smallest = 8 := rfl
  omega

theorem bytes_holding (size : Nat) : bytes (holding size) = 2 ^ Nat.clog 2 (max size smallest) := by
  have order := smallest_order size
  calc smallest * 2 ^ (Nat.clog 2 (max size smallest) - 3)
      = 2 ^ 3 * 2 ^ (Nat.clog 2 (max size smallest) - 3) := rfl
    _ = 2 ^ Nat.clog 2 (max size smallest) := by rw [← Nat.pow_add, Nat.add_sub_cancel' order]

theorem le_bytes (size : Nat) : size ≤ bytes (holding size) := by
  rw [bytes_holding]
  exact (Nat.le_max_left ..).trans (Nat.le_pow_clog (by decide) _)

theorem order_le (small : size ≤ largest) : Nat.clog 2 (max size smallest) ≤ 11 :=
  (Nat.clog_le_iff_le_pow (by decide)).mpr (Nat.max_le.mpr ⟨small, by decide⟩)

theorem holding_lt (small : size ≤ largest) : holding size < count := by
  have := order_le small
  simp only [holding, count]
  omega

theorem ofSize_eq (small : size ≤ largest) : ofSize size = .ok (.ok (holding size)) := by
  have order := smallest_order size
  have word := order_le small
  have positive : 0 < max size smallest := lt_max_of_lt_right (by decide)
  have power := Word.trailingZeros_two_pow (show Nat.clog 2 (max size smallest) ≤ 64 by omega)
  have eight : Word.trailingZeros smallest 64 = 3 := Word.trailingZeros_two_pow (k := 3) (by decide)
  simp only [ofSize, if_neg (Nat.not_lt.mpr small), Word.bitLength_pred positive,
    Nat.one_shiftLeft, power, eight, Word.sub_eq order, ok_bind, pure_eq_ok, holding]

theorem holding_bytes (index : Nat) : holding (bytes index) = index := by
  have power : max (bytes index) smallest = 2 ^ (3 + index) := by
    have least : smallest ≤ bytes index := Nat.le_mul_of_pos_right _ (Nat.two_pow_pos index)
    rw [Nat.max_eq_left least, Nat.pow_add]
    rfl
  rw [holding, power, Nat.clog_pow 2 _ (by decide), Nat.add_sub_cancel_left]

theorem bytes_inj {left right : Nat} (same : bytes left = bytes right) : left = right := by
  rw [← holding_bytes left, same, holding_bytes]

theorem bytes_le (small : index < count) : bytes index ≤ largest :=
  (by decide : ∀ index < count, bytes index ≤ largest) index small

theorem objectSize_eq (small : index < count) : objectSize index = .ok (bytes index) := by
  have fits : smallest * 2 ^ index < 2 ^ 64 := (bytes_le small).trans_lt (by decide)
  exact Word.shiftLeft_eq (small.trans (by decide)) fits

theorem firstObject_eq (small : index < count) :
    SlabHeader.firstObject (bytes index) = .ok (first index) := by
  change index < 9 at small
  interval_cases index <;> rfl

theorem objectsPerPage_eq (small : index < count) :
    SlabHeader.objectsPerPage (bytes index) = .ok (objects index) := by
  change index < 9 at small
  interval_cases index <;> rfl

theorem word_le_bytes (index : Nat) : 8 ≤ bytes index :=
  Nat.le_mul_of_pos_right _ (Nat.two_pow_pos index)

theorem bytes_dvd_page (small : index < count) : bytes index ∣ pageSize :=
  (by decide : ∀ index < count, bytes index ∣ pageSize) index small

theorem bytes_dvd_first (small : index < count) : bytes index ∣ first index :=
  (by decide : ∀ index < count, bytes index ∣ first index) index small

theorem objects_fit (small : index < count) : first index + objects index * bytes index ≤ pageSize :=
  (by decide : ∀ index < count, first index + objects index * bytes index ≤ pageSize) index small

theorem objects_pos (small : index < count) : 0 < objects index :=
  (by decide : ∀ index < count, 0 < objects index) index small

theorem objects_lt (small : index < count) : objects index < pageSize :=
  (by decide : ∀ index < count, objects index < pageSize) index small

end SizeClass

def Slot (page index addr : Nat) : Prop :=
  ∃ place < SizeClass.objects index, addr = page + SizeClass.first index + place * SizeClass.bytes index

def slots (page index : Nat) : List Nat :=
  (List.range (SizeClass.objects index)).map fun place =>
    page + SizeClass.first index + place * SizeClass.bytes index

theorem mem_slots {page index addr : Nat} : addr ∈ slots page index ↔ Slot page index addr := by
  simp only [slots, List.mem_map, List.mem_range, Slot, eq_comm]

theorem slots_length (page index : Nat) : (slots page index).length = SizeClass.objects index := by
  rw [slots, List.length_map, List.length_range]

theorem drop_slots (page : Nat) {index place : Nat} (bound : place < SizeClass.objects index) :
    (slots page index).drop place =
      (page + SizeClass.first index + place * SizeClass.bytes index) ::
        (slots page index).drop (place + 1) := by
  rw [List.drop_eq_getElem_cons (by rwa [slots_length])]
  simp only [slots, List.getElem_map, List.getElem_range]

theorem slots_eq_cons (page : Nat) {index : Nat} (small : index < SizeClass.count) :
    slots page index =
      (page + SizeClass.first index + 0 * SizeClass.bytes index) :: (slots page index).drop 1 :=
  drop_slots page (SizeClass.objects_pos small)

theorem slots_nodup (page index : Nat) : (slots page index).Nodup := by
  refine List.nodup_range.map fun left right same => ?_
  have positive : 0 < SizeClass.bytes index := Nat.lt_of_lt_of_le (by decide) (SizeClass.word_le_bytes index)
  exact Nat.eq_of_mul_eq_mul_right positive (Nat.add_left_cancel same)

namespace Slot

open SizeClass

variable {page index addr other : Nat}

theorem inside (slot : Slot page index addr) (small : index < count) :
    page + SlabHeader.size ≤ addr ∧ addr + bytes index ≤ page + pageSize := by
  obtain ⟨place, bound, rfl⟩ := slot
  have fit := objects_fit small
  have last : (place + 1) * bytes index ≤ objects index * bytes index := Nat.mul_le_mul_right _ bound
  have lower : SlabHeader.size ≤ first index := Nat.le_max_left ..
  rw [Nat.succ_mul] at last
  omega

theorem head_word {free : List Nat} (free_slots : ∀ object ∈ free, Slot page index object)
    (small : index < count) (word : page + 2 * pageSize ≤ 2 ^ 64) : free.headD 0 < 256 ^ 8 := by
  cases free with
  | nil => decide
  | cons object rest =>
      have := (free_slots object (List.mem_cons_self ..)).inside small
      have := word_le_bytes index
      have := pageSize_pos
      rw [List.headD_cons]
      omega

theorem dvd (slot : Slot page index addr) (small : index < count) (paged : pageSize ∣ page) :
    bytes index ∣ addr := by
  obtain ⟨place, bound, rfl⟩ := slot
  have start := (bytes_dvd_page small).trans paged
  exact Nat.dvd_add (Nat.dvd_add start (bytes_dvd_first small)) (Nat.dvd_mul_left ..)

theorem page_eq (slot : Slot page index addr) (small : index < count) (paged : pageSize ∣ page) :
    addr / pageSize * pageSize = page := by
  have := slot.inside small
  have := word_le_bytes index
  obtain ⟨frame, rfl⟩ := paged
  have quotient : addr / pageSize = frame := by
    rw [Nat.div_eq_iff pageSize_pos, Nat.mul_comm frame]
    omega
  rw [quotient, Nat.mul_comm]

theorem not_paged (slot : Slot page index addr) (small : index < count) (paged : pageSize ∣ page) :
    ¬ pageSize ∣ addr := by
  intro aligned
  have same := slot.page_eq small paged
  rw [Nat.div_mul_cancel aligned] at same
  have := slot.inside small
  have : SlabHeader.size = 32 := rfl
  omega

theorem apart (slot : Slot page index addr) (otherSlot : Slot page index other)
    (different : addr ≠ other) : addr + bytes index ≤ other ∨ other + bytes index ≤ addr := by
  obtain ⟨place, _, rfl⟩ := slot
  obtain ⟨otherPlace, _, rfl⟩ := otherSlot
  rcases Nat.lt_trichotomy place otherPlace with less | same | greater
  · have := Nat.mul_le_mul_right (bytes index) less
    rw [Nat.succ_mul] at this
    omega
  · rw [same] at different
    exact absurd rfl different
  · have := Nat.mul_le_mul_right (bytes index) greater
    rw [Nat.succ_mul] at this
    omega

theorem iff_of_inside (lower : page + first index ≤ addr) :
    Slot page index addr ↔ bytes index ∣ addr - (page + first index) ∧
      (addr - (page + first index)) / bytes index < objects index := by
  have positive : 0 < bytes index := Nat.lt_of_lt_of_le (by decide) (word_le_bytes index)
  constructor
  · intro slot
    obtain ⟨place, bound, rfl⟩ := slot
    rw [Nat.add_sub_cancel_left, Nat.mul_div_cancel _ positive]
    exact ⟨Nat.dvd_mul_left .., bound⟩
  · intro found
    refine ⟨_, found.2, ?_⟩
    rw [Nat.div_mul_cancel found.1]
    omega

end Slot

namespace SlabHeader

variable {header : SlabHeader} {page index addr : Nat}

/-- The test for an object of a page is exact as long as the object would end within the words. -/
theorem holdsObject_eq (small : index < SizeClass.count) (size : header.objectSize = SizeClass.bytes index)
    (total : header.totalObjects = SizeClass.objects index) (word : page + 2 * pageSize ≤ 2 ^ 64)
    (stopWord : addr + SizeClass.bytes index < 2 ^ 64) :
    ∃ answer, header.holdsObject page addr = .ok answer ∧ (answer = true ↔ Slot page index addr) := by
  have least := SizeClass.word_le_bytes index
  have most := SizeClass.bytes_le small
  have fit := SizeClass.objects_fit small
  have room : SizeClass.largest < pageSize := by decide
  have firstWord : page + SizeClass.first index < 2 ^ 64 := by omega
  have pageWord : page + pageSize < 2 ^ 64 := by
    have := pageSize_pos
    omega
  unfold holdsObject
  rw [size, if_neg (by omega), SizeClass.firstObject_eq small, ok_bind, Word.add_eq firstWord, ok_bind]
  by_cases lower : addr < page + SizeClass.first index
  · rw [if_pos lower]
    refine ⟨false, rfl, iff_of_false (by simp) fun slot => ?_⟩
    obtain ⟨place, _, rfl⟩ := slot
    omega
  rw [if_neg lower, Word.add_eq stopWord, ok_bind, Word.add_eq pageWord, ok_bind]
  by_cases upper : page + pageSize < addr + SizeClass.bytes index
  · rw [if_pos upper]
    refine ⟨false, rfl, iff_of_false (by simp) fun slot => ?_⟩
    have := slot.inside small
    omega
  have offset := Nat.le_of_not_lt lower
  have remainder : Word.rem (addr - (page + SizeClass.first index)) (SizeClass.bytes index) =
      .ok ((addr - (page + SizeClass.first index)) % SizeClass.bytes index) := if_neg (by omega)
  rw [if_neg upper, Word.sub_eq offset, ok_bind, remainder, ok_bind, Slot.iff_of_inside offset, total,
    Nat.dvd_iff_mod_eq_zero]
  by_cases divides : (addr - (page + SizeClass.first index)) % SizeClass.bytes index = 0
  · rw [if_neg (not_not.mpr divides)]
    exact ⟨_, rfl, by simp [divides]⟩
  · rw [if_pos divides]
    exact ⟨false, rfl, by simp [divides]⟩

/-- Where an object would end past the last word, the test itself faults. -/
theorem holdsObject_overflow (small : index < SizeClass.count)
    (size : header.objectSize = SizeClass.bytes index) (word : page + 2 * pageSize ≤ 2 ^ 64)
    (past : 2 ^ 64 ≤ addr + SizeClass.bytes index) :
    header.holdsObject page addr = .error .addOverflow := by
  have least := SizeClass.word_le_bytes index
  have most := SizeClass.bytes_le small
  have fit := SizeClass.objects_fit small
  have room : SizeClass.largest < pageSize := by decide
  have firstWord : page + SizeClass.first index < 2 ^ 64 := by omega
  have stop : Word.add addr (SizeClass.bytes index) = .error .addOverflow :=
    if_neg (Nat.not_lt.mpr past)
  unfold holdsObject
  rw [size, if_neg (by omega), SizeClass.firstObject_eq small, ok_bind, Word.add_eq firstWord, ok_bind,
    if_neg (by omega), stop, error_bind]

/-- Whatever number of objects a header claims, the test for an object faults or keeps to the page. -/
theorem holdsObject_cases (small : index < SizeClass.count) (size : header.objectSize = SizeClass.bytes index)
    (word : page + 2 * pageSize ≤ 2 ^ 64) (addr : Nat) :
    (∃ answer, header.holdsObject page addr = .ok answer ∧
      (answer = true → page ≤ addr ∧ addr < page + pageSize)) ∨
    header.holdsObject page addr = .error .addOverflow ∧ 2 ^ 64 ≤ addr + SizeClass.bytes index := by
  by_cases past : 2 ^ 64 ≤ addr + SizeClass.bytes index
  · exact .inr ⟨holdsObject_overflow small size word past, past⟩
  have least := SizeClass.word_le_bytes index
  have fit := SizeClass.objects_fit small
  have room := pageSize_pos
  have first := Word.add_eq (show page + SizeClass.first index < 2 ^ 64 by omega)
  have stop := Word.add_eq (Nat.lt_of_not_le past)
  have pageStop := Word.add_eq (show page + pageSize < 2 ^ 64 by omega)
  have some : SizeClass.bytes index ≠ 0 := by omega
  unfold holdsObject
  simp only [size, if_neg some, SizeClass.firstObject_eq small, ok_bind, first, stop, pageStop]
  refine .inl ?_
  by_cases lower : addr < page + SizeClass.first index
  · exact ⟨false, if_pos lower, nofun⟩
  rw [if_neg lower]
  by_cases upper : page + pageSize < addr + SizeClass.bytes index
  · exact ⟨false, if_pos upper, nofun⟩
  have offset := Word.sub_eq (Nat.le_of_not_lt lower)
  have remainder : Word.rem (addr - (page + SizeClass.first index)) (SizeClass.bytes index) =
      .ok ((addr - (page + SizeClass.first index)) % SizeClass.bytes index) := if_neg some
  rw [if_neg upper, offset, ok_bind, remainder, ok_bind]
  by_cases divides : (addr - (page + SizeClass.first index)) % SizeClass.bytes index = 0
  · rw [if_neg (not_not.mpr divides)]
    exact ⟨_, rfl, fun _ => by omega⟩
  · exact ⟨false, if_pos divides, nofun⟩

end SlabHeader

end ZonedMemory
