import Mathlib.Data.Nat.Log
import Mathlib.Data.Nat.Bitwise
import Mathlib.Tactic.Ring
import ZonedMemory.Proofs.Outcome
import ZonedMemory.Word

namespace ZonedMemory.Word

/-!
Word arithmetic in terms of the numbers it computes: when an operation stays in range its answer is
the exact one, and bit masks are divisions by powers of two.
-/

variable {a b k bits : Nat}

theorem add_eq (bound : a + b < 2 ^ 64) : add a b = .ok (a + b) := if_pos bound

theorem sub_eq (bound : b ≤ a) : sub a b = .ok (a - b) := if_pos bound

theorem mul_eq (bound : a * b < 2 ^ 64) : mul a b = .ok (a * b) := if_pos bound

theorem add_eq_ok {c : Nat} : add a b = .ok c ↔ a + b < 2 ^ 64 ∧ c = a + b := by
  unfold add
  split <;> simp_all [eq_comm]

theorem sub_eq_ok {c : Nat} : sub a b = .ok c ↔ b ≤ a ∧ c = a - b := by
  unfold sub
  split <;> simp_all [eq_comm]

theorem mul_eq_ok {c : Nat} : mul a b = .ok c ↔ a * b < 2 ^ 64 ∧ c = a * b := by
  unfold mul
  split <;> simp_all [eq_comm]

theorem shiftLeft_one (small : k < 64) : shiftLeft 1 k = .ok (2 ^ k) := by
  have fits : 2 ^ k < 2 ^ 64 := Nat.pow_lt_pow_right (by decide) small
  rw [shiftLeft, if_pos small, Nat.one_shiftLeft, Nat.one_shiftLeft, Nat.mod_eq_of_lt fits]

theorem shiftLeft_eq (small : k < 64) (fits : a * 2 ^ k < 2 ^ 64) :
    shiftLeft a k = .ok (a * 2 ^ k) := by
  rw [shiftLeft, if_pos small, Nat.shiftLeft_eq, Nat.one_shiftLeft, Nat.mod_eq_of_lt fits]

theorem nextMultiple_eq {step result : Nat} (computed : nextMultiple a step = .ok result) :
    result = (a + step - 1) / step * step := by
  obtain ⟨rest, remainder, computed⟩ := bind_eq_ok.mp computed
  unfold rem at remainder
  split at remainder
  · cases remainder
  · rename_i some
    obtain rfl := Except.ok.inj remainder
    have positive := Nat.pos_of_ne_zero some
    have whole := Nat.div_add_mod a step
    have short := Nat.mod_lt a positive
    split at computed
    · rename_i even
      obtain rfl := Except.ok.inj computed
      have quotient : (a + step - 1) / step = a / step :=
        Nat.div_eq_of_lt_le (by rw [Nat.mul_comm]; omega) (by rw [Nat.mul_comm, Nat.mul_succ]; omega)
      rw [quotient, Nat.div_mul_cancel (Nat.dvd_of_mod_eq_zero even)]
    · obtain ⟨_, rfl⟩ := add_eq_ok.mp computed
      have quotient : (a + step - 1) / step = a / step + 1 :=
        Nat.div_eq_of_lt_le (by rw [Nat.mul_comm, Nat.mul_succ]; omega)
          (by rw [Nat.mul_comm, Nat.mul_succ, Nat.mul_succ]; omega)
      rw [quotient, Nat.mul_comm, Nat.mul_succ]
      omega

theorem nextMultiple_exists {step : Nat} (positive : 0 < step) (word : a + step ≤ 2 ^ 64) :
    ∃ result, nextMultiple a step = .ok result := by
  have remainder : rem a step = .ok (a % step) := if_neg positive.ne'
  rw [nextMultiple, remainder, ok_bind]
  split
  · exact ⟨a, rfl⟩
  · exact ⟨_, add_eq (by omega)⟩

theorem sum_eq_ok {words : List Nat} {total : Nat} :
    sum words = .ok total ↔ words.sum < 2 ^ 64 ∧ total = words.sum := by
  have from_start : ∀ start, start < 2 ^ 64 → (words.foldlM add start = .ok total ↔
      start + words.sum < 2 ^ 64 ∧ total = start + words.sum) := by
    induction words with
    | nil =>
        intro start bound
        simp only [List.foldlM_nil, pure_eq_ok, Except.ok.injEq, List.sum_nil, Nat.add_zero, bound,
          true_and, eq_comm]
    | cons word rest ih =>
        intro start bound
        rw [List.foldlM_cons, List.sum_cons, ← Nat.add_assoc, bind_eq_ok]
        constructor
        · intro folded
          obtain ⟨next, added, computed⟩ := folded
          obtain ⟨fits, rfl⟩ := add_eq_ok.mp added
          exact (ih _ fits).mp computed
        · intro fits
          obtain ⟨fits, rfl⟩ := fits
          have first : start + word < 2 ^ 64 := by omega
          exact ⟨_, add_eq first, (ih _ first).mpr ⟨fits, rfl⟩⟩
  have whole := from_start 0 (by decide)
  rwa [Nat.zero_add] at whole

theorem bitLength_le_iff : bitLength a ≤ k ↔ a < 2 ^ k := by
  unfold bitLength
  by_cases zero : a = 0
  · simp [zero]
  · rw [if_neg zero, Nat.succ_le_iff, Nat.log2_lt zero]

theorem isPowerOfTwo_two_pow : isPowerOfTwo (2 ^ k) = true := by
  simp [isPowerOfTwo, Nat.and_two_pow_sub_one_eq_mod]

theorem trailingZeros_le (a bits : Nat) : trailingZeros a bits ≤ bits := by
  induction bits generalizing a with
  | zero => simp [trailingZeros]
  | succ bits ih =>
      unfold trailingZeros
      split
      · omega
      · have := ih (a / 2)
        omega

theorem le_trailingZeros_iff (small : k ≤ bits) : k ≤ trailingZeros a bits ↔ 2 ^ k ∣ a := by
  induction bits generalizing a k with
  | zero =>
      obtain rfl : k = 0 := by omega
      simp
  | succ bits ih =>
      unfold trailingZeros
      cases k with
      | zero => simp
      | succ k =>
          by_cases odd : a % 2 = 1
          · have notEven : ¬ 2 ∣ a := by omega
            have notDivides : ¬ 2 ^ (k + 1) ∣ a := fun divides =>
              notEven ((Dvd.intro_left (2 ^ k) (by rw [pow_succ])).trans divides)
            simp [odd, notDivides]
          · have even : a = a / 2 * 2 := by omega
            rw [if_neg odd, Nat.succ_le_succ_iff, ih (by omega)]
            conv_rhs => rw [even, pow_succ]
            exact (Nat.mul_dvd_mul_iff_right (by decide)).symm

theorem trailingZeros_two_pow (small : k ≤ bits) : trailingZeros (2 ^ k) bits = k := by
  apply le_antisymm
  · by_contra larger
    have divides : 2 ^ (k + 1) ∣ 2 ^ k :=
      (le_trailingZeros_iff (by have := trailingZeros_le (2 ^ k) bits; omega)).mp (not_le.mp larger)
    have := (Nat.pow_dvd_pow_iff_le_right (by decide)).mp divides
    omega
  · exact (le_trailingZeros_iff small).mpr dvd_rfl

/-- Masking with the complement of the low bits rounds down to a multiple of a power of two. -/
theorem and_complement (word : a < 2 ^ 64) (small : k ≤ 64) :
    a &&& complement (2 ^ k - 1) = a / 2 ^ k * 2 ^ k := by
  have mask : 2 ^ k - 1 < 2 ^ 64 := by
    have := Nat.pow_le_pow_right (n := 2) (by decide) small
    have := Nat.two_pow_pos k
    omega
  apply Nat.eq_of_testBit_eq
  intro bit
  rw [Nat.testBit_and, complement, Nat.one_shiftLeft, Nat.testBit_two_pow_sub_succ mask,
    Nat.testBit_two_pow_sub_one, Nat.testBit_mul_two_pow, Nat.testBit_div_two_pow]
  by_cases low : bit < k
  · simp [low, Nat.not_le.mpr low]
  · have high : k ≤ bit := Nat.not_lt.mp low
    rw [Nat.sub_add_cancel high]
    by_cases inWord : bit < 64
    · simp [low, high, inWord]
    · have beyond : a.testBit bit = false :=
        Nat.testBit_lt_two_pow (word.trans_le (Nat.pow_le_pow_right (by decide) (by omega)))
      simp [beyond]

/-- Rounded up, a quotient is the one number of steps that is enough and not more than needed. -/
theorem divUp_eq {step count : Nat} (enough : a ≤ count * step) (least : count * step < a + step) :
    divUp a step = count := by
  rw [Nat.mul_comm] at enough least
  have whole := Nat.div_add_mod a step
  have short := Nat.mod_lt a (show step > 0 by omega)
  unfold divUp
  by_cases even : a % step = 0
  · have upper : step * count < step * (a / step + 1) := by rw [Nat.mul_succ]; omega
    have lower : step * (a / step) ≤ step * count := by omega
    rw [if_pos even]
    exact Nat.le_antisymm (Nat.le_of_mul_le_mul_left lower (by omega))
      (Nat.le_of_lt_succ (Nat.lt_of_mul_lt_mul_left upper))
  · have upper : step * count < step * (a / step + 1 + 1) := by rw [Nat.mul_succ, Nat.mul_succ]; omega
    have lower : step * (a / step) < step * count := by omega
    rw [if_neg even]
    exact Nat.le_antisymm (Nat.lt_of_mul_lt_mul_left lower)
      (Nat.le_of_lt_succ (Nat.lt_of_mul_lt_mul_left upper))

end ZonedMemory.Word
