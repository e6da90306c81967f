import Mathlib.Algebra.Order.Field.Rat
import Mathlib.Data.Rat.Cast.Order
import Mathlib.Order.Bounds.Basic
import Mathlib.Tactic.FieldSimp
import Mathlib.Tactic.Linarith
import Mathlib.Tactic.NormNum
import ZonedMemory.Text.ByteSize

namespace ZonedMemory.Text

/-!
What the text of a byte count says. The number that it shows is the whole number of hundredths of the
unit that the count fills, so the count is no smaller than what is shown and less than a hundredth of a
unit larger.
-/

/-- The number with the given digits before and after the point. -/
def decimal (whole places : List Char) : ℚ :=
  Nat.ofDigitChars 10 whole 0 + Nat.ofDigitChars 10 places 0 / 10 ^ places.length

/-- The number that a text starts with, and what comes after it. -/
def readDecimal (text : List Char) : ℚ × List Char :=
  let whole := text.takeWhile Char.isDigit
  match text.dropWhile Char.isDigit with
  | '.' :: rest => (decimal whole (rest.takeWhile Char.isDigit), rest.dropWhile Char.isDigit)
  | rest => (decimal whole [], rest)

/-- The places after a point, with the point if there are any. -/
def pointed (places : List Char) : String :=
  if places = [] then "" else "." ++ String.ofList places

/-- At most two digits, of which the last is not zero. -/
structure Places (places : List Char) : Prop where
  length_le : places.length ≤ 2
  digits : ∀ digit ∈ places, digit.isDigit
  last : places.getLast? ≠ some '0'

/-- The number of units in a byte count, cut off after two places. -/
structure Truncated (bytes unit : Nat) (number : ℚ) : Prop where
  largest : bytes = 0 ∧ unit = 0 ∨ IsGreatest {u | u ≤ 6 ∧ 1024 ^ u ≤ bytes} unit
  number_eq : number = ((100 * bytes / 1024 ^ unit : Nat) : ℚ) / 100
  le : number * 1024 ^ unit ≤ bytes
  lt : bytes < (number + 1 / 100) * 1024 ^ unit

variable {bytes unit hundredths : Nat} {whole places rest : List Char}

theorem pow_unit (unit : Nat) : 2 ^ (10 * unit) = 1024 ^ unit := Nat.pow_mul 2 10 unit

theorem unit_pos (unit : Nat) : 0 < 1024 ^ unit := Nat.pow_pos (by decide)

theorem shift_pos_iff : bytes >>> (10 * unit) > 0 ↔ 1024 ^ unit ≤ bytes := by
  rw [Nat.shiftRight_eq_div_pow, pow_unit, gt_iff_lt, Nat.div_pos_iff]
  exact and_iff_right (unit_pos unit)

/-- Climbing stops at the last unit that the count fills, however far that is. -/
theorem climbUnits_largest (bytes steps unit : Nat) :
    (climbUnits bytes steps unit = unit ∨ 1024 ^ climbUnits bytes steps unit ≤ bytes) ∧
      climbUnits bytes steps unit ≤ unit + steps ∧
      ∀ other ≤ unit + steps, 1024 ^ other ≤ bytes → other ≤ climbUnits bytes steps unit := by
  induction steps generalizing unit with
  | zero => exact ⟨.inl rfl, le_rfl, fun other le _ => le⟩
  | succ steps ih =>
      unfold climbUnits
      split
      · rename_i fills
        rw [shift_pos_iff] at fills
        obtain ⟨reached, le, largest⟩ := ih (unit + 1)
        refine ⟨.inr ?_, by omega, fun other le => largest other (by omega)⟩
        rcases reached with stays | filled
        · rwa [stays]
        · exact filled
      · rename_i lacks
        rw [shift_pos_iff] at lacks
        refine ⟨.inl rfl, by omega, fun other _ filled => ?_⟩
        by_contra above
        exact lacks ((Nat.pow_le_pow_right (by decide) (by omega)).trans filled)

theorem byteUnit_largest (bytes : Nat) :
    bytes = 0 ∧ byteUnit bytes = 0 ∨ IsGreatest {u | u ≤ 6 ∧ 1024 ^ u ≤ bytes} (byteUnit bytes) := by
  obtain ⟨reached, le, largest⟩ := climbUnits_largest bytes 6 0
  rw [Nat.zero_add] at le largest
  rcases Nat.eq_zero_or_pos bytes with rfl | positive
  · exact .inl ⟨rfl, rfl⟩
  · refine .inr ⟨⟨le, ?_⟩, fun other fills => largest other fills.1 fills.2⟩
    rcases reached with bottom | fills
    · change 1024 ^ climbUnits bytes 6 0 ≤ bytes
      rw [bottom]
      exact positive
    · exact fills

theorem byteUnit_lt (bytes : Nat) : byteUnit bytes < byteUnits.length := by
  have le := (climbUnits_largest bytes 6 0).2.1
  exact Nat.lt_succ_of_le le

theorem byteHundredths_eq (bytes unit : Nat) :
    byteHundredths bytes unit = bytes % 1024 ^ unit * 100 / 1024 ^ unit := by
  rw [byteHundredths, Nat.one_shiftLeft, Nat.and_two_pow_sub_one_eq_mod, Nat.shiftRight_eq_div_pow, pow_unit]

theorem byteHundredths_lt (bytes unit : Nat) : byteHundredths bytes unit < 100 := by
  have short := Nat.mod_lt bytes (unit_pos unit)
  rw [byteHundredths_eq, Nat.div_lt_iff_lt_mul (unit_pos unit)]
  omega

/-- Whole units and the hundredths beside them are all the hundredths that the count fills. -/
theorem hundredths_eq (bytes unit : Nat) :
    100 * bytes / 1024 ^ unit = 100 * (bytes / 1024 ^ unit) + byteHundredths bytes unit := by
  have split := Nat.div_add_mod bytes (1024 ^ unit)
  rw [byteHundredths_eq]
  conv_lhs => rw [← split]
  rw [Nat.mul_add, Nat.mul_left_comm, Nat.mul_add_div (unit_pos unit), Nat.mul_comm 100 (_ % _)]

/-- The digits of hundredths, without zeros at the end. -/
def hundredthPlaces (hundredths : Nat) : List Char :=
  if hundredths = 0 then []
  else if hundredths % 10 = 0 then [Nat.digitChar (hundredths / 10)]
  else [Nat.digitChar (hundredths / 10), Nat.digitChar (hundredths % 10)]

theorem fractionText_eq (few : hundredths < 100) :
    fractionText hundredths = pointed (hundredthPlaces hundredths) := by
  have ten : hundredths / 10 < 10 := by omega
  have text (digits : Nat) : toString digits = String.ofList (Nat.toDigits 10 digits) :=
    Nat.toString_eq_ofList_toDigits
  unfold fractionText hundredthPlaces pointed
  split
  · simp
  · split
    · rw [text, Nat.toDigits_of_lt_base ten]
      simp
    · split
      · rename_i small
        rw [text, Nat.toDigits_of_lt_base small, Nat.div_eq_of_lt small, Nat.mod_eq_of_lt small]
        apply String.toList_injective
        simp
      · rename_i large
        rw [text, Nat.toDigits_of_base_le (by decide) (Nat.le_of_not_lt large), Nat.toDigits_of_lt_base ten]
        simp

theorem hundredthPlaces_places (few : hundredths < 100) : Places (hundredthPlaces hundredths) := by
  have ten : hundredths / 10 < 10 := by omega
  have one : hundredths % 10 < 10 := by omega
  unfold hundredthPlaces
  split
  · exact ⟨by simp, by simp, by simp⟩
  · split
    · refine ⟨by simp, by simp [Nat.isDigit_digitChar, ten], ?_⟩
      simp [Nat.digitChar_eq_zero]
      omega
    · refine ⟨by simp, by simp [Nat.isDigit_digitChar, ten, one], ?_⟩
      simp [Nat.digitChar_eq_zero]
      omega

theorem ofDigitChars_hundredthPlaces (few : hundredths < 100) :
    Nat.ofDigitChars 10 (hundredthPlaces hundredths) 0 * 100 =
      hundredths * 10 ^ (hundredthPlaces hundredths).length := by
  have ten : hundredths / 10 < 10 := by omega
  have one : hundredths % 10 < 10 := by omega
  unfold hundredthPlaces
  split
  · rename_i none
    rw [none]
    rfl
  · split
    · simp [Nat.ofDigitChars_cons_digitChar_of_lt_ten ten]
      omega
    · simp [Nat.ofDigitChars_cons_digitChar_of_lt_ten ten, Nat.ofDigitChars_cons_digitChar_of_lt_ten one]
      omega

theorem decimal_hundredths {hundredths : Nat} (number : Nat) (few : hundredths < 100) :
    decimal (Nat.toDigits 10 number) (hundredthPlaces hundredths) =
      ((100 * number + hundredths : Nat) : ℚ) / 100 := by
  have places := ofDigitChars_hundredthPlaces few
  rw [decimal, Nat.ofDigitChars_ten_toDigits]
  generalize Nat.ofDigitChars 10 (hundredthPlaces hundredths) 0 = read at *
  generalize (hundredthPlaces hundredths).length = length at *
  have exact : (read : ℚ) * 100 = hundredths * 10 ^ length := by exact_mod_cast places
  push_cast
  field_simp
  linarith

theorem span_digits (all : ∀ digit ∈ whole, digit.isDigit) (stops : ∀ char ∈ rest.head?, ¬ char.isDigit) :
    (whole ++ rest).takeWhile Char.isDigit = whole ∧ (whole ++ rest).dropWhile Char.isDigit = rest := by
  rw [List.takeWhile_append_of_pos all, List.dropWhile_append_of_pos all]
  cases rest with
  | nil => simp
  | cons char rest => simp [stops char rfl]

/-- A number is read up to whatever can neither be a digit nor a point. -/
theorem readDecimal_pointed (wholeDigits : ∀ digit ∈ whole, digit.isDigit) (placed : Places places)
    (stops : ∀ char ∈ rest.head?, ¬ char.isDigit ∧ char ≠ '.') :
    readDecimal (whole ++ (pointed places).toList ++ rest) = (decimal whole places, rest) := by
  have after : ∀ char ∈ rest.head?, ¬ char.isDigit := fun char first => (stops char first).1
  cases places with
  | nil =>
      obtain ⟨taken, left⟩ := span_digits wholeDigits after
      have text : whole ++ (pointed []).toList ++ rest = whole ++ rest := by simp [pointed]
      simp only [text, readDecimal, taken, left]
      split
      · exact absurd rfl (stops '.' rfl).2
      · rfl
  | cons place places =>
      have point : ∀ char ∈ ('.' :: (place :: places ++ rest)).head?, ¬ char.isDigit := by simp
      obtain ⟨taken, left⟩ := span_digits wholeDigits point
      obtain ⟨placesTaken, placesLeft⟩ := span_digits placed.digits after
      have text : whole ++ (pointed (place :: places)).toList ++ rest =
          whole ++ '.' :: (place :: places ++ rest) := by
        simp [pointed]
      simp only [text, readDecimal, taken, left, placesTaken, placesLeft]

theorem byteUnits_stop : ∀ name ∈ byteUnits, ∀ char ∈ name.toList.head?, ¬ char.isDigit ∧ char ≠ '.' := by
  simp [byteUnits]

theorem truncated_of_eq {number : ℚ}
    (largest : bytes = 0 ∧ unit = 0 ∨ IsGreatest {u | u ≤ 6 ∧ 1024 ^ u ≤ bytes} unit)
    (shown : number = ((100 * bytes / 1024 ^ unit : Nat) : ℚ) / 100) : Truncated bytes unit number := by
  have lower := Nat.div_mul_le_self (100 * bytes) (1024 ^ unit)
  have upper := Nat.lt_div_mul_add (a := 100 * bytes) (unit_pos unit)
  refine ⟨largest, shown, ?_, ?_⟩
  · have below : ((100 * bytes / 1024 ^ unit : Nat) : ℚ) * 1024 ^ unit ≤ 100 * bytes := by
      exact_mod_cast lower
    rw [shown]
    linarith
  · have above : (100 * bytes : ℚ) < (100 * bytes / 1024 ^ unit : Nat) * 1024 ^ unit + 1024 ^ unit := by
      exact_mod_cast upper
    rw [shown]
    linarith

/-- A byte count is written as a decimal number of the largest unit that it fills, with at most two
places and no zero at their end. Read back, the number is the count cut off after two places. -/
theorem byteSize_truncated (bytes : Nat) :
    ∃ (unit whole : Nat) (places : List Char) (name : String) (number : ℚ),
      byteUnits[unit]? = some name ∧ Places places ∧
      byteSize bytes = toString whole ++ pointed places ++ name ∧
      readDecimal (byteSize bytes).toList = (number, name.toList) ∧ Truncated bytes unit number := by
  have few := byteHundredths_lt bytes (byteUnit bytes)
  have placed := hundredthPlaces_places few
  have known : byteUnit bytes < byteUnits.length := byteUnit_lt bytes
  have text : byteSize bytes = toString (bytes / 1024 ^ byteUnit bytes) ++
      pointed (hundredthPlaces (byteHundredths bytes (byteUnit bytes))) ++ byteUnits[byteUnit bytes] := by
    simp only [byteSize, Nat.shiftRight_eq_div_pow, pow_unit, fractionText_eq few,
      List.getD_eq_getElem?_getD, List.getElem?_eq_getElem known, Option.getD_some]
  have digits : ∀ digit ∈ Nat.toDigits 10 (bytes / 1024 ^ byteUnit bytes), digit.isDigit := fun _ member =>
    Nat.isDigit_of_mem_toDigits (by decide) (by decide) member
  refine ⟨byteUnit bytes, _, _, byteUnits[byteUnit bytes], _, List.getElem?_eq_getElem known, placed, text, ?_,
    truncated_of_eq (byteUnit_largest bytes) rfl⟩
  have stops := byteUnits_stop _ (List.getElem_mem known)
  rw [text, hundredths_eq, ← decimal_hundredths _ few, String.toList_append, String.toList_append,
    Nat.toString_eq_ofList_toDigits, String.toList_ofList]
  exact readDecimal_pointed digits placed stops

example : byteSize 1310720 = "1.25MiB" := by decide

end ZonedMemory.Text
