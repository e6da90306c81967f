import Mathlib.Data.Set.Pairwise.Basic
import Mathlib.Algebra.BigOperators.Group.Finset.Basic
import Mathlib.Order.Interval.Finset.Nat
import Mathlib.Data.Nat.Bitwise
import Mathlib.Tactic.Ring
import ZonedMemory.Proofs.Order

namespace ZonedMemory

/-!
Runs of page frames. A block of order `k` is a run of `2 ^ k` frames; a natural one starts at a
multiple of its length. Two natural blocks are nested or apart, and this is all the geometry that
splitting and joining blocks needs.
-/

/-- The frames from `start` on, `2 ^ order` of them. -/
structure Block where
  start : Nat
  order : Nat
  deriving DecidableEq

namespace Block

def pages (x : Block) : Nat := 2 ^ x.order

def stop (x : Block) : Nat := x.start + x.pages

def addr (x : Block) : Nat := x.start * pageSize

def bytes (x : Block) : Nat := x.pages * pageSize

def Holds (x : Block) (frame : Nat) : Prop := x.start ≤ frame ∧ frame < x.stop

def Within (x y : Block) : Prop := y.start ≤ x.start ∧ x.stop ≤ y.stop

def Apart (x y : Block) : Prop := x.stop ≤ y.start ∨ y.stop ≤ x.start

def Natural (x : Block) : Prop := x.pages ∣ x.start

/-- The other half of the next larger natural block. -/
def buddy (x : Block) : Block := ⟨x.start ^^^ x.pages, x.order⟩

/-- The next larger natural block around a block. -/
def parent (x : Block) : Block := ⟨min x.start x.buddy.start, x.order + 1⟩

variable {x y z : Block} {frame : Nat}

theorem pages_pos (x : Block) : 0 < x.pages := Nat.two_pow_pos x.order

theorem start_lt_stop (x : Block) : x.start < x.stop := Nat.lt_add_of_pos_right x.pages_pos

theorem holds_start (x : Block) : x.Holds x.start := ⟨Nat.le_refl _, x.start_lt_stop⟩

theorem holds_last (x : Block) : x.Holds (x.stop - 1) := by
  have := x.start_lt_stop
  exact ⟨by omega, by omega⟩

theorem page_dvd_addr (x : Block) : pageSize ∣ x.addr := Nat.dvd_mul_left _ _

theorem addr_div (x : Block) : x.addr / pageSize = x.start := Frame.ofAddress_start x.start

theorem addr_add_bytes (x : Block) : x.addr + x.bytes = x.stop * pageSize := (Nat.add_mul ..).symm

theorem bytes_pos (x : Block) : 0 < x.bytes := Nat.mul_pos (Nat.two_pow_pos _) pageSize_pos

theorem Apart.symm (apart : x.Apart y) : y.Apart x := Or.symm apart

theorem apart_iff : x.Apart y ↔ ∀ frame, x.Holds frame → ¬ y.Holds frame := by
  have := x.start_lt_stop
  have := y.start_lt_stop
  simp only [Apart, Holds]
  constructor
  · intro apart frame left right
    omega
  · intro disjoint
    by_contra overlap
    exact disjoint (max x.start y.start) ⟨by omega, by omega⟩ ⟨by omega, by omega⟩

theorem apart_iff_addr :
    x.Apart y ↔ x.addr + x.bytes ≤ y.addr ∨ y.addr + y.bytes ≤ x.addr := by
  rw [addr_add_bytes, addr_add_bytes, addr, addr, Nat.mul_le_mul_right_iff pageSize_pos,
    Nat.mul_le_mul_right_iff pageSize_pos, Apart]

theorem not_apart_self (x : Block) : ¬ x.Apart x := by
  have := x.start_lt_stop
  simp only [Apart]
  omega

theorem not_apart_of_within (within : x.Within y) : ¬ x.Apart y := by
  have := x.start_lt_stop
  simp only [Apart, Within] at *
  omega

theorem Within.trans (inner : x.Within y) (outer : y.Within z) : x.Within z :=
  ⟨outer.1.trans inner.1, inner.2.trans outer.2⟩

theorem Apart.of_within (apart : y.Apart z) (within : x.Within y) : x.Apart z := by
  simp only [Apart, Within] at *
  omega

theorem Within.order_le (within : x.Within y) : x.order ≤ y.order := by
  by_contra larger
  have := Nat.pow_lt_pow_right (a := 2) (by decide) (Nat.lt_of_not_le larger)
  simp only [Within, stop, pages] at within
  omega

theorem Within.eq_of_order_le (within : x.Within y) (le : y.order ≤ x.order) : x = y := by
  have same : x.order = y.order := Nat.le_antisymm within.order_le le
  have lengths : x.pages = y.pages := congrArg (2 ^ ·) same
  have starts : x.start = y.start := by
    simp only [Within, stop, lengths] at within
    omega
  cases x
  cases y
  simp_all

/-- The address of a natural block is a multiple of its own size and of what its order makes it. -/
theorem dvd_addr {k n : Nat} (divides : 2 ^ k ∣ x.start) (le : n ≤ k + pageShift) :
    2 ^ n ∣ x.addr := by
  have product : 2 ^ (k + pageShift) ∣ x.addr := by
    rw [addr, pageSize_eq, pow_add]
    exact Nat.mul_dvd_mul_right divides _
  exact (pow_dvd_pow 2 le).trans product

theorem pages_dvd (le : x.order ≤ y.order) : x.pages ∣ y.pages := pow_dvd_pow 2 le

/-- Of two natural blocks the smaller one lies inside the larger one or apart from it. -/
theorem Natural.apart_or_within (left : x.Natural) (right : y.Natural) (le : x.order ≤ y.order) :
    x.Apart y ∨ x.Within y := by
  obtain ⟨a, start⟩ := left
  obtain ⟨b, otherStart⟩ := (pages_dvd le).trans right
  obtain ⟨c, otherStop⟩ : x.pages ∣ y.stop :=
    Nat.dvd_add ((pages_dvd le).trans right) (pages_dvd le)
  have stop : x.stop = x.pages * (a + 1) := by rw [Block.stop, start, Nat.mul_succ]
  simp only [Apart, Within, stop, start, otherStart, otherStop,
    Nat.mul_le_mul_left_iff x.pages_pos]
  omega

/-- A natural block is the lower or the upper half of a natural block, by its next bit. -/
theorem Natural.buddy_cases (natural : x.Natural) :
    (2 * x.pages ∣ x.start ∧ x.buddy.start = x.stop) ∨
      (2 * x.pages ∣ x.buddy.start ∧ x.buddy.stop = x.start) := by
  obtain ⟨a, start⟩ := natural
  have flipped : x.buddy.start = x.pages * (a ^^^ 1) := by
    change x.start ^^^ x.pages = _
    conv_lhs => rw [start, Nat.mul_comm, pages, ← Nat.shiftLeft_eq]
    conv_lhs => rhs; rw [← Nat.one_shiftLeft]
    rw [← Nat.shiftLeft_xor_distrib, Nat.shiftLeft_eq, Nat.mul_comm, pages]
  rcases Nat.even_or_odd a with even | odd
  · left
    obtain ⟨half, rfl⟩ := even
    refine ⟨⟨half, by rw [start]; ring⟩, ?_⟩
    rw [flipped, Nat.xor_one_of_even ⟨half, rfl⟩, stop, start, Nat.mul_succ]
  · right
    obtain ⟨half, rfl⟩ := odd
    have lower : x.buddy.start = x.pages * (2 * half) := by
      rw [flipped, Nat.xor_one_of_odd ⟨half, rfl⟩, Nat.add_sub_cancel]
    refine ⟨⟨half, by rw [lower]; ring⟩, ?_⟩
    rw [stop, lower, start]
    change _ + x.pages = _
    ring

@[simp] theorem buddy_pages (x : Block) : x.buddy.pages = x.pages := rfl

theorem buddy_buddy (x : Block) : x.buddy.buddy = x := by
  cases x
  simp [buddy, pages]

theorem Natural.buddy_natural (natural : x.Natural) : x.buddy.Natural := by
  rcases natural.buddy_cases with ⟨_, start⟩ | ⟨divides, _⟩
  · rw [Natural, buddy_pages, start]
    exact Nat.dvd_add natural dvd_rfl
  · exact (Nat.dvd_mul_left _ _).trans divides

theorem Natural.buddy_apart (natural : x.Natural) : x.Apart x.buddy := by
  rcases natural.buddy_cases with ⟨_, start⟩ | ⟨_, stop⟩
  · exact .inl start.ge
  · exact .inr stop.le

theorem Natural.parent_natural (natural : x.Natural) : x.parent.Natural := by
  have positive := x.pages_pos
  have buddyStop : x.buddy.stop = x.buddy.start + x.pages := rfl
  rw [Natural, parent, pages, pow_succ, Nat.mul_comm]
  rcases natural.buddy_cases with ⟨divides, start⟩ | ⟨divides, stop⟩
  · rw [Nat.min_eq_left (by rw [start]; exact x.start_lt_stop.le)]
    exact divides
  · rw [Nat.min_eq_right (by omega)]
    exact divides

theorem Natural.parent_holds_iff (natural : x.Natural) :
    x.parent.Holds frame ↔ x.Holds frame ∨ x.buddy.Holds frame := by
  have length : x.parent.pages = 2 * x.pages := by
    rw [pages, pages, ← Nat.pow_succ']
    rfl
  have stop : x.parent.stop = min x.start x.buddy.start + 2 * x.pages := by
    rw [Block.stop, length]
    rfl
  have start : x.parent.start = min x.start x.buddy.start := rfl
  have buddyStop : x.buddy.stop = x.buddy.start + x.pages := rfl
  have ownStop : x.stop = x.start + x.pages := rfl
  simp only [Holds, stop, start]
  rcases natural.buddy_cases with ⟨_, start⟩ | ⟨_, stop⟩ <;> omega

theorem Natural.within_parent (natural : x.Natural) : x.Within x.parent := by
  have first : x.parent.Holds x.start := natural.parent_holds_iff.mpr (.inl x.holds_start)
  have last : x.parent.Holds (x.stop - 1) := natural.parent_holds_iff.mpr (.inl x.holds_last)
  have := x.start_lt_stop
  exact ⟨first.1, by have := last.2; omega⟩

theorem Natural.lower_half {start half : Nat} (natural : Natural ⟨start, half + 1⟩) :
    Natural ⟨start, half⟩ ∧ buddy ⟨start, half⟩ = ⟨start + 2 ^ half, half⟩ := by
  have divides : 2 * 2 ^ half ∣ start := by
    rw [← Nat.pow_succ']
    exact natural
  have lowerNatural : Natural ⟨start, half⟩ := (Nat.dvd_mul_left _ _).trans divides
  refine ⟨lowerNatural, ?_⟩
  rcases lowerNatural.buddy_cases with ⟨_, buddyStart⟩ | ⟨buddyDivides, buddyStop⟩
  · change Block.mk (buddy ⟨start, half⟩).start half = _
    rw [buddyStart]
    rfl
  · change _ = start at buddyStop
    rw [← buddyStop] at divides
    have both : 2 * 2 ^ half ∣ 2 ^ half := (Nat.dvd_add_right buddyDivides).mp divides
    have := Nat.le_of_dvd (Nat.two_pow_pos half) both
    have := Nat.two_pow_pos half
    omega

theorem halves_within (start half : Nat) :
    Within ⟨start, half⟩ ⟨start, half + 1⟩ ∧ Within ⟨start + 2 ^ half, half⟩ ⟨start, half + 1⟩ := by
  simp only [Within, stop, pages, pow_succ, Nat.le_refl, Nat.le_add_right, true_and]
  omega

theorem holds_halves_iff {start half : Nat} :
    Holds ⟨start, half + 1⟩ frame ↔
      Holds ⟨start, half⟩ frame ∨ Holds ⟨start + 2 ^ half, half⟩ frame := by
  simp only [Holds, stop, pages, pow_succ]
  omega

end Block

end ZonedMemory
