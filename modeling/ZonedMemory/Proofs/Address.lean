import ZonedMemory.Frame
import ZonedMemory.Proofs.Word

namespace ZonedMemory

/-!
Alignment in terms of divisibility.
-/

theorem pageSize_eq : pageSize = 2 ^ pageShift := rfl

theorem pageSize_pos : 0 < pageSize := by decide

namespace Address

variable {addr other k : Nat}

theorem paged_apart (left : pageSize ∣ addr) (right : pageSize ∣ other) (different : addr ≠ other) :
    addr + pageSize ≤ other ∨ other + pageSize ≤ addr := by
  obtain ⟨i, rfl⟩ := left
  obtain ⟨j, rfl⟩ := right
  change 4096 * i ≠ 4096 * j at different
  change 4096 * i + 4096 ≤ 4096 * j ∨ 4096 * j + 4096 ≤ 4096 * i
  omega

theorem checkAlignment_two_pow : checkAlignment (2 ^ k) = .ok () := by
  rw [checkAlignment, if_pos Word.isPowerOfTwo_two_pow]

theorem isAligned_two_pow : isAligned addr (2 ^ k) = .ok (decide (2 ^ k ∣ addr)) := by
  have masked : (addr &&& (2 ^ k - 1) == 0) = decide (2 ^ k ∣ addr) := by
    rw [Nat.and_two_pow_sub_one_eq_mod, Bool.beq_eq_decide_eq, decide_eq_decide]
    exact Nat.dvd_iff_mod_eq_zero.symm
  simp only [isAligned, checkAlignment_two_pow, ok_bind, pure_eq_ok, masked]

theorem isAligned_page : isAligned addr pageSize = .ok (decide (pageSize ∣ addr)) :=
  isAligned_two_pow (k := pageShift)

theorem alignDown_two_pow (word : addr < 2 ^ 64) (small : k ≤ 64) :
    alignDown addr (2 ^ k) = .ok (addr / 2 ^ k * 2 ^ k) := by
  simp only [alignDown, checkAlignment_two_pow, ok_bind, pure_eq_ok, Word.and_complement word small]

theorem alignDown_page (word : addr < 2 ^ 64) :
    alignDown addr pageSize = .ok (addr / pageSize * pageSize) :=
  alignDown_two_pow (k := pageShift) word (by decide)

/-- Rounding up has an answer below the last block of the address space only. -/
theorem alignUp_two_pow_eq_ok {result : Nat} :
    alignUp addr (2 ^ k) = .ok result ↔
      addr + 2 ^ k < 2 ^ 64 ∧ result = (addr + 2 ^ k - 1) / 2 ^ k * 2 ^ k := by
  have positive := Nat.two_pow_pos k
  have masked (bound : addr + 2 ^ k < 2 ^ 64) :
      (addr + 2 ^ k - 1) &&& Word.complement (2 ^ k - 1) = (addr + 2 ^ k - 1) / 2 ^ k * 2 ^ k := by
    have small : k < 64 := (Nat.pow_lt_pow_iff_right (by decide)).mp (Nat.lt_of_add_left_lt bound)
    exact Word.and_complement (by omega) small.le
  simp only [alignUp, checkAlignment_two_pow, ok_bind, bind_eq_ok, Word.add_eq_ok, Word.sub_eq_ok,
    pure_eq_ok, Except.ok.injEq]
  constructor
  · rintro ⟨past, ⟨bound, rfl⟩, last, ⟨_, rfl⟩, rfl⟩
    exact ⟨bound, masked bound⟩
  · rintro ⟨bound, rfl⟩
    exact ⟨_, ⟨bound, rfl⟩, _, ⟨by omega, rfl⟩, masked bound⟩

theorem alignUp_page_eq_ok {result : Nat} :
    alignUp addr pageSize = .ok result ↔
      addr + pageSize < 2 ^ 64 ∧ result = (addr + pageSize - 1) / pageSize * pageSize :=
  alignUp_two_pow_eq_ok (k := pageShift)

end Address

theorem Frame.start_eq {frame : Nat} (bound : frame * pageSize < 2 ^ 64) :
    Frame.start frame = .ok (frame * pageSize) := Word.mul_eq bound

theorem Frame.ofAddress_start (frame : Nat) : Frame.ofAddress (frame * pageSize) = frame :=
  Nat.mul_div_cancel _ pageSize_pos

end ZonedMemory
