import Mathlib.Tactic.Ring
import ZonedMemory.Memory
import ZonedMemory.Proofs.Outcome

namespace ZonedMemory

/-!
Reading back what was written. A write changes the bytes of its own stretch only, and a number that
fits its width is read as it was written.
-/

namespace Bytes

theorem length_ofNumber (value width : Nat) : (ofNumber value width).length = width := by
  induction width generalizing value with
  | zero => rfl
  | succ width ih => simp only [ofNumber, List.length_cons, ih]

theorem toNumber_ofNumber (value width : Nat) :
    toNumber (ofNumber value width) = value % 256 ^ width := by
  induction width generalizing value with
  | zero => simp [ofNumber, toNumber, Nat.mod_one]
  | succ width ih =>
      have low : (UInt8.ofNat (value % 256)).toNat = value % 256 := by simp
      rw [ofNumber, toNumber, ih, low, Nat.pow_succ', Nat.mod_mul]

theorem toNumber_zeros (width : Nat) : toNumber (List.replicate width 0) = 0 := by
  induction width with
  | zero => rfl
  | succ width ih =>
      rw [List.replicate_succ, toNumber, ih]
      rfl

end Bytes

namespace Memory

variable {m other : Memory} {addr place width value : Nat} {bytes : List UInt8}

theorem byte_setByte (m : Memory) (addr place : Nat) (value : UInt8) :
    (m.setByte addr value).byte place = if addr = place then value else m.byte place := by
  simp only [byte, setByte, Std.TreeMap.getD_insert, compare_eq_iff_eq]

@[simp] theorem byte_zeroed (translator : Translator) (addr : Nat) : (zeroed translator).byte addr = 0 := by
  simp [byte, zeroed]

theorem translator_setBytes (m : Memory) (addr : Nat) (bytes : List UInt8) :
    (m.setBytes addr bytes).translator = m.translator := by
  induction bytes generalizing m addr with
  | nil => rfl
  | cons value rest ih => exact ih (m.setByte addr value) (addr + 1)

theorem byte_setBytes_outside (outside : place < addr ∨ addr + bytes.length ≤ place) :
    (m.setBytes addr bytes).byte place = m.byte place := by
  induction bytes generalizing m addr with
  | nil => rfl
  | cons value rest ih =>
      rw [List.length_cons] at outside
      rw [setBytes, ih (by omega), byte_setByte, if_neg (by omega)]

theorem byte_setBytes_inside (inside : place < bytes.length) :
    (m.setBytes addr bytes).byte (addr + place) = bytes[place] := by
  induction bytes generalizing m addr place with
  | nil => cases inside
  | cons value rest ih =>
      cases place with
      | zero =>
          rw [setBytes, byte_setBytes_outside (.inl (by omega)), byte_setByte, if_pos (by rfl)]
          rfl
      | succ place =>
          rw [setBytes, show addr + (place + 1) = addr + 1 + place by omega,
            ih (Nat.lt_of_succ_lt_succ inside)]
          rfl

theorem bytesFrom_setBytes (m : Memory) (addr : Nat) (bytes : List UInt8) :
    (m.setBytes addr bytes).bytesFrom addr bytes.length = bytes := by
  apply List.ext_getElem
  · simp [bytesFrom]
  · intro place left right
    simp only [bytesFrom, List.getElem_map, List.getElem_range]
    exact byte_setBytes_inside right

theorem number_congr (same : ∀ place < width, other.byte (addr + place) = m.byte (addr + place)) :
    other.number addr width = m.number addr width := by
  unfold number bytesFrom
  congr 1
  apply List.map_congr_left
  intro place listed
  exact same place (List.mem_range.mp listed)

theorem byte_setNumber_outside (outside : place < addr ∨ addr + width ≤ place) :
    (m.setNumber addr width value).byte place = m.byte place := by
  apply byte_setBytes_outside
  rwa [Bytes.length_ofNumber]

theorem number_setNumber (fits : value < 256 ^ width) :
    (m.setNumber addr width value).number addr width = value := by
  have stored := bytesFrom_setBytes m addr (Bytes.ofNumber value width)
  rw [Bytes.length_ofNumber] at stored
  rw [number, setNumber, stored, Bytes.toNumber_ofNumber, Nat.mod_eq_of_lt fits]

theorem number_setNumber_outside {start length : Nat}
    (outside : start + length ≤ addr ∨ addr + width ≤ start) :
    (m.setNumber addr width value).number start length = m.number start length := by
  apply number_congr
  intro place inside
  apply byte_setNumber_outside
  omega

theorem number_zeroed (translator : Translator) (addr width : Nat) :
    (zeroed translator).number addr width = 0 := by
  have zeros : (zeroed translator).bytesFrom addr width = List.replicate width 0 := by
    simp only [bytesFrom, byte_zeroed, List.map_const', List.length_range]
  rw [number, zeros, Bytes.toNumber_zeros]

theorem reach_congr (same : other.translator = m.translator) : other.reach addr = m.reach addr := by
  rw [reach, reach, same]

@[simp] theorem translator_setNumber : (m.setNumber addr width value).translator = m.translator :=
  translator_setBytes m addr _

theorem readWord_eq (reached : m.reach addr = .ok ()) : m.readWord addr = .ok (m.number addr 8) := by
  rw [readWord, reached]
  rfl

theorem writeWord_eq (value : Nat) (reached : m.reach addr = .ok ()) :
    m.writeWord addr value = .ok (m.setNumber addr 8 value) := by
  rw [writeWord, reached]
  rfl

end Memory

end ZonedMemory
