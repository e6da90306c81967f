import Mathlib.Algebra.Order.Ring.Nat
import ZonedMemory.Text.Hex

namespace ZonedMemory.Text

/-!
Grouped hexadecimal text can be read back. Four digits at the low end and the underscore in front of
them make one group; what is left is the text of the number without its four lowest digits.
-/

/-- The digits, each at the place of its value. -/
def upperHex : List Char :=
  ['0', '1', '2', '3', '4', '5', '6', '7', '8', '9', 'A', 'B', 'C', 'D', 'E', 'F']

/-- The number that upper-case hexadecimal digits spell out, the highest first. -/
def ofUpperHex? (digits : List Char) : Option Nat :=
  digits.foldlM (fun value digit => (upperHex.idxOf? digit).map (16 * value + ·)) 0

/-- The number in a text that starts with `0x`; underscores are passed over. -/
def ofGroupedHex? (text : String) : Option Nat :=
  match text.toList with
  | '0' :: 'x' :: digits => ofUpperHex? (digits.filter (· != '_'))
  | _ => none

/-- The digits of a number in groups, the highest first. -/
structure Grouped (value : Nat) (first : List Char) (others : List (List Char)) : Prop where
  nonempty : first ≠ []
  first_length : first.length ≤ 4
  others_length : ∀ group ∈ others, group.length = 4
  upper : ∀ digit ∈ first ++ others.flatten, digit ∈ upperHex
  leading : first.head? = some '0' → value = 0
  zero : value = 0 → first = ['0'] ∧ others = []
  reads : ofUpperHex? (first ++ others.flatten) = some value

/-- The lowest `count` digits of a number, the highest first. -/
def upperDigits (value : Nat) : (count : Nat) → List Char
  | 0 => []
  | count + 1 => upperDigits (value / 16) count ++ [upperDigit (value % 16)]

variable {value count : Nat} {first : List Char} {others : List (List Char)}

theorem idxOf?_upperDigit : ∀ digit < 16, upperHex.idxOf? (upperDigit digit) = some digit := by decide

theorem upperDigit_mem : ∀ digit < 16, upperDigit digit ∈ upperHex := by decide

theorem upperDigit_eq_zero : ∀ digit < 16, upperDigit digit = '0' → digit = 0 := by decide

theorem underscore_notMem : '_' ∉ upperHex := by decide

theorem length_upperDigits : (upperDigits value count).length = count := by
  induction count generalizing value with
  | zero => rfl
  | succ count ih => rw [upperDigits, List.length_append, ih, List.length_singleton]

theorem upperDigits_mem : ∀ digit ∈ upperDigits value count, digit ∈ upperHex := by
  induction count generalizing value with
  | zero => simp [upperDigits]
  | succ count ih =>
      intro digit member
      rcases List.mem_append.mp member with high | low
      · exact ih digit high
      · rw [List.mem_singleton.mp low]
        exact upperDigit_mem _ (Nat.mod_lt _ (by decide))

theorem ofUpperHex?_concat (digits : List Char) (digit : Char) :
    ofUpperHex? (digits ++ [digit]) =
      (ofUpperHex? digits).bind fun value => (upperHex.idxOf? digit).map (16 * value + ·) := by
  simp [ofUpperHex?, List.foldlM_append]

theorem ofUpperHex?_upperDigits : ofUpperHex? (upperDigits value count) = some (value % 16 ^ count) := by
  induction count generalizing value with
  | zero => simp [upperDigits, ofUpperHex?, Nat.mod_one]
  | succ count ih =>
      rw [upperDigits, ofUpperHex?_concat, ih, Option.bind_some,
        idxOf?_upperDigit _ (Nat.mod_lt _ (by decide)), Option.map_some, Nat.pow_succ', Nat.mod_mul]
      congr 1
      omega

/-- Read from the other end, the digits have the same first one and the same rest. -/
theorem upperDigits_succ :
    upperDigits value (count + 1) = upperDigit (value / 16 ^ count % 16) :: upperDigits value count := by
  induction count generalizing value with
  | zero => simp [upperDigits]
  | succ count ih =>
      rw [upperDigits, ih, upperDigits, Nat.div_div_eq_div_mul, ← Nat.pow_succ', List.cons_append]

theorem upperDigits_add_four (value count : Nat) :
    upperDigits value (count + 4) = upperDigits (value / 16 ^ 4) count ++ upperDigits value 4 := by
  simp [upperDigits, Nat.div_div_eq_div_mul]

theorem digit_at (place : Nat) : (value >>> (place * 4)) &&& 15 = value / 16 ^ place % 16 := by
  rw [Nat.shiftRight_eq_div_pow, Nat.mul_comm, Nat.pow_mul]
  exact Nat.and_two_pow_sub_one_eq_mod _ 4

theorem groupedDigits_succ (place : Nat) :
    groupedDigits value (place + 1) = upperDigit (value / 16 ^ place % 16) ::
      if place ≠ 0 ∧ place % 4 = 0 then '_' :: groupedDigits value place
      else groupedDigits value place := by
  rw [groupedDigits, digit_at]
  split <;> rfl

theorem groupedDigits_few (few : count ≤ 4) : groupedDigits value count = upperDigits value count := by
  induction count with
  | zero => rfl
  | succ place ih =>
      have unmarked : ¬ (place ≠ 0 ∧ place % 4 = 0) := by omega
      rw [groupedDigits_succ, if_neg unmarked, ih (by omega), upperDigits_succ]

/-- The four lowest digits make a group of their own. -/
theorem groupedDigits_add_four :
    groupedDigits value (count + 1 + 4) =
      groupedDigits (value / 16 ^ 4) (count + 1) ++ '_' :: upperDigits value 4 := by
  have digit (place : Nat) : value / 16 ^ (place + 4) = value / 16 ^ 4 / 16 ^ place := by
    rw [Nat.div_div_eq_div_mul, ← Nat.pow_add, Nat.add_comm]
  induction count with
  | zero =>
      have lowest : groupedDigits value 4 = upperDigits value 4 := groupedDigits_few le_rfl
      rw [Nat.zero_add, groupedDigits_succ 4, lowest, groupedDigits_succ 0, Nat.pow_zero, Nat.div_one]
      rfl
  | succ count ih =>
      have marked : (count + 1 + 4 ≠ 0 ∧ (count + 1 + 4) % 4 = 0) ↔
          (count + 1 ≠ 0 ∧ (count + 1) % 4 = 0) := by
        omega
      rw [Nat.add_right_comm, groupedDigits_succ (count + 1 + 4), ih, groupedDigits_succ (count + 1), digit]
      simp only [marked]
      split <;> rfl

theorem groupedDigits_groups (value : Nat) (positive : 0 < count) :
    ∃ (first : List Char) (others : List (List Char)), groupedDigits value count = first ++ others.flatMap ('_' :: ·) ∧
      first ++ others.flatten = upperDigits value count ∧ first ≠ [] ∧ first.length ≤ 4 ∧
      ∀ group ∈ others, group.length = 4 := by
  induction count using Nat.strong_induction_on generalizing value with
  | _ count ih =>
      by_cases few : count ≤ 4
      · refine ⟨upperDigits value count, [], by simp [groupedDigits_few few], by simp, ?_, ?_, by simp⟩
        · exact List.ne_nil_of_length_pos (by rwa [length_upperDigits])
        · rwa [length_upperDigits]
      · obtain ⟨rest, rfl⟩ : ∃ rest, count = rest + 1 + 4 := ⟨count - 5, by omega⟩
        obtain ⟨first, others, spelled, digits, nonempty, short, lengths⟩ :=
          ih (rest + 1) (by omega) (value / 16 ^ 4) (by omega)
        refine ⟨first, others ++ [upperDigits value 4], ?_, ?_, nonempty, short, ?_⟩
        · rw [groupedDigits_add_four, spelled]
          simp
        · rw [upperDigits_add_four value (rest + 1), ← digits]
          simp
        · intro group member
          rcases List.mem_append.mp member with high | low
          · exact lengths group high
          · rw [List.mem_singleton.mp low, length_upperDigits]

theorem hexLength_pos : 0 < hexLength value := by
  unfold hexLength
  split <;> omega

theorem lt_pow_hexLength (value : Nat) : value < 16 ^ hexLength value := by
  unfold hexLength
  split
  · omega
  · have upper := Nat.lt_log2_self (n := value)
    refine upper.trans_le ?_
    rw [show 16 = 2 ^ 4 from rfl, ← Nat.pow_mul]
    exact Nat.pow_le_pow_right (by decide) (by omega)

theorem pow_hexLength_le (positive : 0 < value) : 16 ^ (hexLength value - 1) ≤ value := by
  have lower := Nat.log2_self_le positive.ne'
  rw [hexLength, if_neg positive.ne', show 16 = 2 ^ 4 from rfl, ← Nat.pow_mul]
  exact (Nat.pow_le_pow_right (by decide) (by omega)).trans lower

/-- As many digits as the number has start with one that is not zero. -/
theorem head?_upperDigits (positive : 0 < value) :
    (upperDigits value (hexLength value)).head? ≠ some '0' := by
  obtain ⟨place, length⟩ : ∃ place, hexLength value = place + 1 := ⟨_, (Nat.succ_pred hexLength_pos.ne').symm⟩
  have lower := pow_hexLength_le positive
  have upper := lt_pow_hexLength value
  rw [length] at lower upper ⊢
  have some : 0 < value / 16 ^ place := Nat.div_pos lower (Nat.pow_pos (by decide))
  have digit : value / 16 ^ place < 16 := Nat.div_lt_of_lt_mul (by rwa [← Nat.pow_succ])
  rw [upperDigits_succ, Nat.mod_eq_of_lt digit, List.head?_cons]
  intro zero
  have := upperDigit_eq_zero _ digit (Option.some.inj zero)
  omega

theorem intercalate_cons (first : List Char) (others : List (List Char)) :
    List.intercalate ['_'] (first :: others) = first ++ others.flatMap ('_' :: ·) := by
  induction others generalizing first with
  | nil => simp
  | cons next others ih => simp [List.intercalate_cons_cons, ih]

theorem filter_upper {digits : List Char} (upper : ∀ digit ∈ digits, digit ∈ upperHex) :
    digits.filter (· != '_') = digits := by
  refine List.filter_eq_self.mpr fun digit member => bne_iff_ne.mpr ?_
  rintro rfl
  exact underscore_notMem (upper _ member)

/-- Without the underscores there are the digits of all groups left. -/
theorem filter_groups (upper : ∀ digit ∈ first ++ others.flatten, digit ∈ upperHex) :
    (first ++ others.flatMap ('_' :: ·)).filter (· != '_') = first ++ others.flatten := by
  have front : ∀ digit ∈ first, digit ∈ upperHex := fun digit member =>
    upper digit (List.mem_append_left _ member)
  have group : ∀ group ∈ others, ('_' :: group).filter (· != '_') = group := fun group listed =>
    filter_upper fun digit member =>
      upper digit (List.mem_append_right _ (List.mem_flatten_of_mem listed member))
  rw [List.filter_append, filter_upper front, List.filter_flatMap, List.flatMap_def,
    List.map_congr_left group, List.map_id']

theorem grouped_exists (value : Nat) :
    ∃ (first : List Char) (others : List (List Char)), Grouped value first others ∧
      groupedDigits value (hexLength value) = first ++ others.flatMap ('_' :: ·) := by
  obtain ⟨first, others, spelled, digits, nonempty, short, lengths⟩ :=
    groupedDigits_groups value hexLength_pos
  have head : first.head? = (upperDigits value (hexLength value)).head? := by
    rw [← digits, List.head?_append, Option.or_of_isSome (by simpa using nonempty)]
  refine ⟨first, others, ⟨nonempty, short, lengths, ?_, ?_, ?_, ?_⟩, spelled⟩
  · rw [digits]
    exact upperDigits_mem
  · intro zero
    rw [head] at zero
    by_contra some
    exact head?_upperDigits (Nat.pos_of_ne_zero some) zero
  · rintro rfl
    change first ++ others.flatten = ['0'] at digits
    obtain ⟨digit, front, rfl⟩ := List.exists_cons_of_ne_nil nonempty
    obtain ⟨rfl, rest⟩ := List.cons_eq_cons.mp digits
    obtain ⟨rfl, none⟩ := List.append_eq_nil_iff.mp rest
    refine ⟨rfl, List.eq_nil_iff_forall_not_mem.mpr fun group listed => ?_⟩
    have four := lengths group listed
    rw [List.flatten_eq_nil_iff.mp none group listed] at four
    cases four
  · rw [digits, ofUpperHex?_upperDigits, Nat.mod_eq_of_lt (lt_pow_hexLength value)]

theorem toList_groupedHex (value : Nat) :
    (groupedHex value).toList = '0' :: 'x' :: groupedDigits value (hexLength value) := by
  simp [groupedHex]

theorem ofGroupedHex?_groupedHex (value : Nat) : ofGroupedHex? (groupedHex value) = some value := by
  obtain ⟨first, others, grouped, spelled⟩ := grouped_exists value
  simp only [ofGroupedHex?, toList_groupedHex, spelled]
  rw [filter_groups grouped.upper, grouped.reads]

/-- A number's text is its digits in groups of four with single underscores between them. It can be
read back, so no two numbers have the same text. -/
theorem groupedHex_readable (value : Nat) :
    (∃ first others, Grouped value first others ∧
      groupedHex value = "0x" ++ String.ofList (List.intercalate ['_'] (first :: others))) ∧
    ofGroupedHex? (groupedHex value) = some value ∧
    ∀ other, groupedHex other = groupedHex value ↔ other = value := by
  refine ⟨?_, ofGroupedHex?_groupedHex value, fun other => ⟨fun same => ?_, congrArg _⟩⟩
  · obtain ⟨first, others, grouped, spelled⟩ := grouped_exists value
    refine ⟨first, others, grouped, ?_⟩
    rw [groupedHex, spelled, intercalate_cons]
  · have reread := ofGroupedHex?_groupedHex other
    rw [same, ofGroupedHex?_groupedHex value] at reread
    exact (Option.some.inj reread).symm

example : groupedHex 0xDEADBEEFCAFE = "0xDEAD_BEEF_CAFE" := by decide

end ZonedMemory.Text
