import Mathlib.Data.List.Basic
import ZonedMemory.Proofs.Range
import ZonedMemory.Search

namespace ZonedMemory.Search

/-!
The binary search finds the first entry that fails the test, provided the test has an answer for
every entry and no entry passes after one that fails.
-/

variable {α : Type} {test : α → Except Fault Bool} {passes : α → Bool} {entries : List α}
  {index : Nat}

theorem passes_iff (sorted : entries.Pairwise fun a b => passes b = true → passes a = true)
    (bound : index < entries.length) :
    passes entries[index] = true ↔ index < entries.findIdx fun entry => !passes entry := by
  constructor
  · intro passed
    refine List.lt_findIdx_of_not bound fun earlier le => ?_
    rcases Nat.lt_or_eq_of_le le with less | rfl
    · have earlierPassed := List.pairwise_iff_getElem.mp sorted earlier index (Nat.lt_trans less bound) bound
        less passed
      simp [earlierPassed]
    · simp [passed]
  · intro before
    simpa using List.not_of_lt_findIdx before

theorem probe_eq (total : ∀ entry ∈ entries, test entry = .ok (passes entry))
    (bound : index < entries.length) : probe test entries index = .ok (passes entries[index]) := by
  simp only [probe, List.getElem?_eq_getElem bound]
  exact total _ (List.getElem_mem bound)

theorem narrow_eq {rounds size base turn : Nat}
    (total : ∀ entry ∈ entries, test entry = .ok (passes entry))
    (turns : ∀ index (bound : index < entries.length), passes entries[index] = true ↔ index < turn)
    (lower : base ≤ turn) (upper : turn ≤ base + size) (inside : base + size ≤ entries.length)
    (some : 0 < size ∨ rounds = 0) (enough : size ≤ rounds) :
    narrow test entries rounds size base = .ok turn := by
  induction rounds generalizing size base with
  | zero =>
      obtain rfl : turn = base := by omega
      rfl
  | succ rounds ih =>
      unfold narrow
      by_cases many : size > 1
      · have half : base + size / 2 < entries.length := by omega
        have turned := turns _ half
        simp only [if_pos many, probe_eq total half, ok_bind]
        cases upperHalf : passes entries[base + size / 2] with
        | true =>
            have := turned.mp upperHalf
            simp only [if_true]
            exact ih (by omega) (by omega) (by omega) (by omega) (by omega)
        | false =>
            have : ¬ base + size / 2 < turn := fun less => by
              rw [turned.mpr less] at upperHalf
              cases upperHalf
            simp only [Bool.false_eq_true, if_false]
            exact ih (by omega) (by omega) (by omega) (by omega) (by omega)
      · have last : base < entries.length := by omega
        have turned := turns _ last
        simp only [if_neg many, probe_eq total last, ok_bind, pure_eq_ok]
        by_cases passed : passes entries[base] = true
        · have := turned.mp passed
          rw [if_pos passed]
          exact congrArg Except.ok (by omega)
        · have := mt turned.mpr passed
          rw [if_neg passed]
          exact congrArg Except.ok (by omega)

theorem partitionPoint_eq (total : ∀ entry ∈ entries, test entry = .ok (passes entry))
    (sorted : entries.Pairwise fun a b => passes b = true → passes a = true) :
    partitionPoint test entries = .ok (entries.findIdx fun entry => !passes entry) := by
  refine narrow_eq total (fun index bound => passes_iff sorted bound) (Nat.zero_le _) ?_ ?_ ?_
    (Nat.le_refl _)
  · simpa using List.findIdx_le_length
  · simp
  · exact (Nat.eq_zero_or_pos _).symm

/-- Of entries whose ranges stand in address order, the first that ends past an address is the one that
holds it, if any does. -/
theorem partitionPoint_holds (range : α → Range) (addr : Nat)
    (words : ∀ entry ∈ entries, (range entry).base + (range entry).size < 2 ^ 64)
    (sorted : entries.Pairwise fun a b => (range a).base + (range a).size ≤ (range b).base) :
    ∃ index, partitionPoint (fun entry => do return decide ((← (range entry).stop) ≤ addr)) entries =
        .ok index ∧
      ∀ entry ∈ entries, (range entry).Holds addr → entries[index]? = some entry := by
  have total : ∀ entry ∈ entries, (do return decide ((← (range entry).stop) ≤ addr) : Except Fault Bool) =
      .ok (decide ((range entry).base + (range entry).size ≤ addr)) := by
    intro entry member
    rw [Range.stop_eq (words entry member)]
    rfl
  have turning := partitionPoint_eq total (sorted.imp fun {a b} before passed => by
    simp only [decide_eq_true_eq] at passed ⊢
    omega)
  refine ⟨_, turning, fun entry member holds => ?_⟩
  obtain ⟨front, back, rfl⟩ := List.append_of_mem member
  rw [← List.find?_eq_getElem?_findIdx]
  refine List.find?_eq_some_iff_append.mpr ⟨?_, front, back, rfl, fun earlier inFront => ?_⟩
  · simpa using holds.2
  · have before := (List.pairwise_append.mp sorted).2.2 earlier inFront entry (List.mem_cons_self ..)
    simp only [Bool.not_not, decide_eq_true_eq]
    exact before.trans holds.1

/-- What comes first in an ordered list is no greater than what comes later. -/
theorem le_of_idxOf_le [DecidableEq α] {first second : α} (key : α → Nat)
    (sorted : entries.Pairwise fun a b => key a ≤ key b) (member : first ∈ entries)
    (secondMember : second ∈ entries) (before : entries.idxOf first ≤ entries.idxOf second) :
    key first ≤ key second := by
  rcases Nat.lt_or_eq_of_le before with less | same
  · have ordered := List.pairwise_iff_getElem.mp sorted _ _ (List.idxOf_lt_length_of_mem member)
      (List.idxOf_lt_length_of_mem secondMember) less
    simpa only [List.getElem_idxOf] using ordered
  · rw [List.idxOf_inj member] at same
    exact same ▸ Nat.le_refl _

end ZonedMemory.Search
