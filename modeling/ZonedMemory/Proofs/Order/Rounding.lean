import Mathlib.Order.Bounds.Basic
import ZonedMemory.Proofs.Block

namespace ZonedMemory.Order

/-!
The orders that are computed from page counts and from alignments are the least that will do. Blocks of
an order and of every larger one hold the pages it was computed from, or start at the multiples that the
alignment asks for; blocks of a smaller order do not.
-/

variable {align bits order : Nat}

theorem isLeast_two_pow_clog (align : Nat) :
    IsLeast {p | p.isPowerOfTwo ∧ align ≤ p} (2 ^ Nat.clog 2 align) := by
  refine ⟨⟨⟨_, rfl⟩, Nat.le_pow_clog (by decide) _⟩, ?_⟩
  rintro _ ⟨⟨k, rfl⟩, le⟩
  exact Nat.pow_le_pow_right (by decide) ((Nat.clog_le_iff_le_pow (by decide)).mpr le)

theorem clog_sub_pageShift_le_iff :
    Nat.clog 2 align - pageShift ≤ order ↔ align ≤ pageSize * 2 ^ order := by
  rw [Nat.sub_le_iff_le_add', Nat.clog_le_iff_le_pow (by decide), pow_add, pageSize_eq]

/-- The second block of its order is as little aligned as blocks of the order are. It lies in the address
space whenever the power of two that it is not aligned to is a word. -/
theorem exists_misaligned (word : bits < 64) (less : order < bits - pageShift) :
    ∃ x : Block, x.order = order ∧ x.Natural ∧ x.addr + x.bytes ≤ 2 ^ 64 ∧ ¬ 2 ^ bits ∣ x.addr := by
  have bytes : 2 ^ order * pageSize = 2 ^ (order + pageShift) := by rw [pageSize_eq, pow_add]
  refine ⟨⟨2 ^ order, order⟩, rfl, dvd_rfl, ?_, ?_⟩
  · calc 2 ^ order * pageSize + 2 ^ order * pageSize
        = 2 ^ (order + pageShift + 1) := by rw [bytes, pow_succ, Nat.mul_two]
      _ ≤ 2 ^ 64 := Nat.pow_le_pow_right (by decide) (by omega)
  · change ¬ 2 ^ bits ∣ 2 ^ order * pageSize
    rw [bytes, Nat.pow_dvd_pow_iff_le_right (by decide)]
    omega

/-- What the order of an alignment comes to, with the `power` of two that the alignment rounds up to. -/
structure Aligning (align order power : Nat) : Prop where
  rounded : IsLeast {p | p.isPowerOfTwo ∧ align ≤ p} power
  le_iff : ∀ k, order ≤ k ↔ align ≤ pageSize * 2 ^ k
  enough : ∀ x : Block, x.Natural → order ≤ x.order → power ∣ x.addr
  least : ∀ k < order, ∃ x : Block,
    x.order = k ∧ x.Natural ∧ x.addr + x.bytes ≤ 2 ^ 64 ∧ ¬ power ∣ x.addr

theorem aligning (word : align ≤ 2 ^ 63) :
    Aligning align (Nat.clog 2 align - pageShift) (2 ^ Nat.clog 2 align) where
  rounded := isLeast_two_pow_clog align
  le_iff _ := clog_sub_pageShift_le_iff
  enough x natural le := x.dvd_addr natural (Nat.sub_le_iff_le_add.mp le)
  least _ less := exists_misaligned (Nat.lt_succ_of_le (clog_le_63_iff.mpr word)) less

/-- Page counts and alignments have the least order that will do; an alignment has none if it rounds up
to a power of two that is no word. -/
theorem orders_least (pages align : Nat) :
    (∃ order, ofPages pages = .ok order ∧ ∀ k, order ≤ k ↔ pages ≤ 2 ^ k) ∧
      ∃ answer, ofAlignment align = .ok answer ∧ (answer = none ↔ 2 ^ 63 < align) ∧
        ∀ order ∈ answer, ∃ power, Aligning align order power := by
  refine ⟨⟨_, ofPages_eq pages, fun k => Nat.clog_le_iff_le_pow (by decide)⟩, _, ofAlignment_eq align, ?_⟩
  by_cases word : align ≤ 2 ^ 63
  · rw [if_pos word]
    refine ⟨by simpa using word, fun order found => ?_⟩
    obtain rfl := Option.some.inj found
    exact ⟨_, aligning word⟩
  · rw [if_neg word]
    exact ⟨by simpa using word, fun _ found => nomatch found⟩

example : ofAlignment 12288 = .ok (some 2) := by decide

end ZonedMemory.Order
