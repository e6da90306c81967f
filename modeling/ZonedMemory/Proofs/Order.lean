import ZonedMemory.Order
import ZonedMemory.Proofs.Address

namespace ZonedMemory

/-!
Orders are binary logarithms rounded up, of page counts and of alignments.
-/

theorem Word.bitLength_pred {a : Nat} (positive : 0 < a) : bitLength (a - 1) = Nat.clog 2 a := by
  apply eq_of_forall_ge_iff
  intro k
  rw [bitLength_le_iff, Nat.clog_le_iff_le_pow (by decide)]
  omega

namespace Order

theorem ofPages_eq (pages : Nat) : ofPages pages = .ok (Nat.clog 2 pages) := by
  unfold ofPages
  split
  · rename_i few
    rw [Nat.clog_of_right_le_one few]
    rfl
  · rw [Word.sub_eq (by omega), ok_bind, Word.bitLength_pred (by omega)]
    rfl

theorem clog_le_63_iff {align : Nat} : Nat.clog 2 align ≤ 63 ↔ align ≤ 2 ^ 63 :=
  Nat.clog_le_iff_le_pow (by decide)

/-- The order of an alignment is the logarithm of the alignment less that of a page, unless the
alignment rounds up to a number that is no word. -/
theorem ofAlignment_eq (align : Nat) :
    ofAlignment align =
      .ok (if align ≤ 2 ^ 63 then some (Nat.clog 2 align - pageShift) else none) := by
  unfold ofAlignment
  by_cases small : align ≤ pageSize
  · have order : Nat.clog 2 align ≤ pageShift := (Nat.clog_le_iff_le_pow (by decide)).mpr small
    have word : align ≤ 2 ^ 63 := small.trans (by decide)
    rw [if_pos small, if_pos word, Nat.sub_eq_zero_of_le order]
    rfl
  · have positive : 0 < align := by have := pageSize_pos; omega
    have large : pageShift ≤ Nat.clog 2 align := by
      by_contra less
      exact small ((Nat.clog_le_iff_le_pow (by decide)).mp (by omega : Nat.clog 2 align ≤ pageShift))
    have fits : 2 ^ Nat.clog 2 align < 2 ^ 64 ↔ align ≤ 2 ^ 63 := by
      rw [Nat.pow_lt_pow_iff_right (by decide), ← clog_le_63_iff]
      omega
    simp only [if_neg small, Word.nextPowerOfTwo?, Word.bitLength_pred positive, Nat.one_shiftLeft, fits]
    by_cases word : align ≤ 2 ^ 63
    · have order := clog_le_63_iff.mpr word
      simp only [if_pos word, Word.trailingZeros_two_pow (show Nat.clog 2 align ≤ 64 by omega),
        Word.sub_eq large, ok_bind, pure_eq_ok]
    · simp only [if_neg word, pure_eq_ok]

end Order

end ZonedMemory
