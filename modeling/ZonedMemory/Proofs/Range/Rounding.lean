import Mathlib.Order.Bounds.Basic
import ZonedMemory.Proofs.Range

namespace ZonedMemory

/-!
Rounding, as the nearest multiple on either side. The sum that rounding up masks is one more than it
need be, so the start of the topmost block is the one address that has a multiple above or at it and
yet is not rounded up.
-/

namespace Address

variable {addr align ceiling : Nat}

theorem isGreatest_div_mul (positive : 0 < align) :
    IsGreatest {m | align ∣ m ∧ m ≤ addr} (addr / align * align) := by
  refine ⟨⟨Nat.dvd_mul_left _ _, Nat.div_mul_le_self _ _⟩, ?_⟩
  rintro _ ⟨⟨i, rfl⟩, le⟩
  rw [Nat.mul_comm align i] at le ⊢
  exact Nat.mul_le_mul_right _ ((Nat.le_div_iff_mul_le positive).mpr le)

theorem isLeast_div_mul (positive : 0 < align) :
    IsLeast {m | align ∣ m ∧ addr ≤ m} ((addr + align - 1) / align * align) := by
  refine ⟨⟨Nat.dvd_mul_left _ _, ?_⟩, ?_⟩
  · have whole := Nat.div_add_mod (addr + align - 1) align
    have short := Nat.mod_lt (addr + align - 1) positive
    rw [Nat.mul_comm] at whole
    omega
  · rintro _ ⟨⟨i, rfl⟩, le⟩
    rw [Nat.mul_comm align i] at le ⊢
    refine Nat.mul_le_mul_right _ (Nat.le_of_lt_succ ?_)
    rw [Nat.div_lt_iff_lt_mul positive, Nat.succ_mul]
    omega

/-- Whatever rounds up to a word has a whole block of words above it, the start of the topmost block
apart. -/
theorem add_lt_of_isLeast (least : IsLeast {m | align ∣ m ∧ addr ≤ m} ceiling) (word : ceiling < 2 ^ 64)
    (divides : align ∣ 2 ^ 64) (notTop : addr + align ≠ 2 ^ 64) : addr + align < 2 ^ 64 := by
  obtain ⟨⟨i, rfl⟩, le⟩ := least.1
  obtain ⟨j, top⟩ := divides
  have room : align * (i + 1) ≤ 2 ^ 64 := by
    rw [top] at word ⊢
    exact Nat.mul_le_mul_left _ (Nat.lt_of_mul_lt_mul_left word)
  rw [Nat.mul_succ] at room
  omega

/-- What rounding an address to an alignment comes to. -/
structure Rounded (addr align : Nat) : Prop where
  aligned : isAligned addr align = .ok (decide (align ∣ addr))
  down : ∃ floor, alignDown addr align = .ok floor ∧ IsGreatest {m | align ∣ m ∧ m ≤ addr} floor
  up : ∀ ceiling, alignUp addr align = .ok ceiling ↔
    IsLeast {m | align ∣ m ∧ addr ≤ m} ceiling ∧ ceiling < 2 ^ 64 ∧ addr + align ≠ 2 ^ 64
  top : addr + align = 2 ^ 64 → alignUp addr align = .error .addOverflow

theorem rounded (word : addr < 2 ^ 64) (alignWord : align < 2 ^ 64) (power : align.isPowerOfTwo) :
    Rounded addr align := by
  obtain ⟨k, rfl⟩ := power
  have small : k < 64 := (Nat.pow_lt_pow_iff_right (by decide)).mp alignWord
  have positive := Nat.two_pow_pos k
  refine ⟨isAligned_two_pow, ?_, fun ceiling => ?_, fun top => ?_⟩
  · exact ⟨_, alignDown_two_pow word small.le, isGreatest_div_mul positive⟩
  · have divides : 2 ^ k ∣ 2 ^ 64 := Nat.pow_dvd_pow 2 small.le
    rw [alignUp_two_pow_eq_ok]
    constructor
    · rintro ⟨bound, rfl⟩
      have below := Nat.div_mul_le_self (addr + 2 ^ k - 1) (2 ^ k)
      exact ⟨isLeast_div_mul positive, by omega, bound.ne⟩
    · rintro ⟨least, bound, notTop⟩
      exact ⟨add_lt_of_isLeast least bound divides notTop, least.unique (isLeast_div_mul positive)⟩
  · have overflow : Word.add addr (2 ^ k) = .error .addOverflow := if_neg (not_lt.mpr top.ge)
    simp only [alignUp, checkAlignment_two_pow, overflow, ok_bind, error_bind]

end Address

namespace Range

/-- What shrinking a range to whole pages comes to. -/
structure Shrunk (r : Range) : Prop where
  whole : ∀ ceiling, IsLeast {m | pageSize ∣ m ∧ r.base ≤ m} ceiling → ceiling < 2 ^ 64 →
    r.base + pageSize ≠ 2 ^ 64 → ∃ inner, r.pageAligned = .ok inner ∧ inner.base = ceiling ∧
      inner.Paged ∧ ∀ addr, inner.Holds addr ↔ r.HasFrame (addr / pageSize)
  top : r.base + pageSize = 2 ^ 64 → r.pageAligned = .error .addOverflow

theorem shrunk {r : Range} (word : r.base + r.size < 2 ^ 64) : r.Shrunk := by
  have rounded : Address.Rounded r.base pageSize :=
    Address.rounded (Nat.lt_of_add_right_lt word) (by decide) ⟨pageShift, pageSize_eq⟩
  refine ⟨fun ceiling least bound notTop => ?_, fun top => ?_⟩
  · have belowLast := Address.add_lt_of_isLeast least bound (by decide) notTop
    have aligned := pageAligned_eq word belowLast
    have paged := pageAligned_paged aligned
    have lowest : IsLeast {m | pageSize ∣ m ∧ r.base ≤ m} _ := Address.isLeast_div_mul pageSize_pos
    refine ⟨_, aligned, lowest.unique least, paged, fun addr => ?_⟩
    rw [← pageAligned_hasFrame aligned]
    refine ⟨paged.hasFrame, fun has => ?_⟩
    have lower := Nat.div_mul_le_self addr pageSize
    have upper := Nat.lt_div_mul_add (a := addr) pageSize_pos
    rw [HasFrame, Nat.succ_mul] at has
    exact ⟨has.1.trans lower, upper.trans_le has.2⟩
  · simp only [pageAligned, rounded.top top, error_bind]

end Range

/-- Rounding finds the nearest multiples, and ranges shrink to just the frames that lie in them, up to
the start of the topmost block, which is not rounded up. -/
theorem rounds_below_top {addr align : Nat} {r : Range} (word : addr < 2 ^ 64) (alignWord : align < 2 ^ 64)
    (power : align.isPowerOfTwo) (rangeWord : r.base + r.size < 2 ^ 64) :
    Address.Rounded addr align ∧ r.Shrunk :=
  ⟨Address.rounded word alignWord power, Range.shrunk rangeWord⟩

theorem rounds_below_top_last :
    2 ^ 64 - 4097 < 2 ^ 64 ∧ 4096 < 2 ^ 64 ∧ Nat.isPowerOfTwo 4096 ∧ 2 ^ 64 - 12287 + 12286 < 2 ^ 64 ∧
      Address.alignUp (2 ^ 64 - 4097) 4096 = .ok (2 ^ 64 - 4096) ∧
      ∃ inner, Range.pageAligned ⟨2 ^ 64 - 12287, 12286⟩ = .ok inner ∧
        ∀ addr, inner.Holds addr ↔ Range.HasFrame ⟨2 ^ 64 - 12287, 12286⟩ (addr / pageSize) := by
  have word : 2 ^ 64 - 4097 < 2 ^ 64 := by decide
  have alignWord : 4096 < 2 ^ 64 := by decide
  have power : Nat.isPowerOfTwo 4096 := ⟨12, by decide⟩
  have rangeWord : 2 ^ 64 - 12287 + 12286 < 2 ^ 64 := by decide
  obtain ⟨rounded, shrunk⟩ :=
    rounds_below_top (r := ⟨2 ^ 64 - 12287, 12286⟩) word alignWord power rangeWord
  have least : IsLeast {m | 4096 ∣ m ∧ 2 ^ 64 - 4097 ≤ m} (2 ^ 64 - 4096) := by
    refine ⟨⟨by decide, by decide⟩, fun m found => ?_⟩
    obtain ⟨⟨i, rfl⟩, le⟩ := found
    omega
  have leastPage : IsLeast {m | pageSize ∣ m ∧ 2 ^ 64 - 12287 ≤ m} (2 ^ 64 - 8192) := by
    refine ⟨⟨by decide, by decide⟩, fun m found => ?_⟩
    obtain ⟨⟨i, rfl⟩, le⟩ := found
    change 2 ^ 64 - 12287 ≤ 4096 * i at le
    change 2 ^ 64 - 8192 ≤ 4096 * i
    omega
  obtain ⟨inner, aligned, _, _, frames⟩ := shrunk.whole _ leastPage (by decide) (by decide)
  exact ⟨word, alignWord, power, rangeWord, (rounded.up _).mpr ⟨least, by decide, by decide⟩, inner,
    aligned, frames⟩

/-- The start of the topmost page is a multiple already, and rounding it up overflows. -/
theorem not_all_rounded :
    ¬ ∀ addr align ceiling, addr < 2 ^ 64 → align < 2 ^ 64 → align.isPowerOfTwo →
      IsLeast {m | align ∣ m ∧ addr ≤ m} ceiling → ceiling < 2 ^ 64 →
      Address.alignUp addr align = .ok ceiling := by
  intro claimed
  have least : IsLeast {m | 4096 ∣ m ∧ 2 ^ 64 - 4096 ≤ m} (2 ^ 64 - 4096) :=
    ⟨⟨by decide, le_rfl⟩, fun m found => found.2⟩
  have answer := claimed (2 ^ 64 - 4096) 4096 (2 ^ 64 - 4096) (by decide) (by decide) ⟨12, by decide⟩
    least (by decide)
  have overflow : Address.alignUp (2 ^ 64 - 4096) 4096 = .error .addOverflow := by rfl
  rw [overflow] at answer
  cases answer

end ZonedMemory
