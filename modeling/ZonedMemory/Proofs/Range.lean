import ZonedMemory.Proofs.Address
import ZonedMemory.Range

namespace ZonedMemory.Range

/-!
Ranges that end inside the address space, by their bounds.
-/

def Paged (r : Range) : Prop := pageSize ∣ r.base ∧ pageSize ∣ r.size

/-- One range ends at or below the start of the other, or one of them is empty. -/
def Before (r other : Range) : Prop := r.size = 0 ∨ other.size = 0 ∨ r.base + r.size ≤ other.base

def Inside (r other : Range) : Prop :=
  r.size = 0 ∨ other.base ≤ r.base ∧ r.base + r.size ≤ other.base + other.size

def Apart (r other : Range) : Prop :=
  r.base + r.size ≤ other.base ∨ other.base + other.size ≤ r.base

/-- The range sticks out of the other one on both sides. -/
def Encloses (r other : Range) : Prop :=
  r.base < other.base ∧ other.base + other.size < r.base + r.size

/-- Two ranges neither overlap nor touch. -/
def Gapped (r other : Range) : Prop :=
  r.base + r.size < other.base ∨ other.base + other.size < r.base

def Holds (r : Range) (addr : Nat) : Prop := r.base ≤ addr ∧ addr < r.base + r.size

/-- The range has every byte of a page frame. -/
def HasFrame (r : Range) (frame : Nat) : Prop :=
  r.base ≤ frame * pageSize ∧ (frame + 1) * pageSize ≤ r.base + r.size

variable {r other low high inner outer : Range} {addr frame : Nat}

/-- The first frame that lies in the range as a whole, if any does. -/
def firstFrame (r : Range) : Nat := (r.base + pageSize - 1) / pageSize

def wholePages (r : Range) : Nat := (r.base + r.size) / pageSize - r.firstFrame

theorem pageAligned_eq (word : r.base + r.size < 2 ^ 64) (belowLast : r.base + pageSize < 2 ^ 64) :
    r.pageAligned = .ok ⟨r.firstFrame * pageSize, r.wholePages * pageSize⟩ := by
  have start := Address.alignUp_page_eq_ok.mpr ⟨belowLast, rfl⟩
  have sum : r.stop = .ok (r.base + r.size) := Word.add_eq word
  have stop := Address.alignDown_page word
  change _ = Except.ok (r.firstFrame * pageSize) at start
  simp only [pageAligned, start, sum, stop, ok_bind, pure_eq_ok]
  by_cases none : (r.base + r.size) / pageSize * pageSize ≤ r.firstFrame * pageSize
  · have count : r.wholePages = 0 := Nat.sub_eq_zero_of_le (Nat.le_of_mul_le_mul_right none pageSize_pos)
    rw [if_pos none, count, Nat.zero_mul]
  · have size := Word.sub_eq (Nat.le_of_not_le none)
    simp only [if_neg none, ofBounds, size, ok_bind, pure_eq_ok, wholePages, Nat.sub_mul]

theorem wholePages_word (word : r.base + r.size < 2 ^ 64) (belowLast : r.base + pageSize < 2 ^ 64) :
    r.firstFrame * pageSize + r.wholePages * pageSize < 2 ^ 64 := by
  have lower := Nat.div_mul_le_self (r.base + r.size) pageSize
  have upper := Nat.div_mul_le_self (r.base + pageSize - 1) pageSize
  rw [wholePages, Nat.sub_mul]
  change r.firstFrame * pageSize ≤ _ at upper
  omega

theorem stop_eq (word : r.base + r.size < 2 ^ 64) : r.stop = .ok (r.base + r.size) := Word.add_eq word

theorem text_written (word : r.base + r.size < 2 ^ 64) : ∃ text, r.text = .ok text := by
  simp only [text, stop_eq word, ok_bind, pure_eq_ok]
  exact ⟨_, rfl⟩

/-- Ranges that follow one another have together no more bytes than the address space. -/
theorem total_word {ranges : List Range} (words : ∀ r ∈ ranges, r.base + r.size < 2 ^ 64)
    (sorted : ranges.Pairwise fun r other => r.base + r.size ≤ other.base) :
    (ranges.map Range.size).sum < 2 ^ 64 := by
  have above : ∀ start, start < 2 ^ 64 → (∀ r ∈ ranges, start ≤ r.base) →
      start + (ranges.map Range.size).sum < 2 ^ 64 := by
    induction ranges with
    | nil =>
        intro start word _
        simpa using word
    | cons r rest ih =>
        intro start _ below
        obtain ⟨word, others⟩ := List.forall_mem_cons.mp words
        obtain ⟨after, sorted⟩ := List.pairwise_cons.mp sorted
        have later := ih others sorted (r.base + r.size) word after
        have lower := below r (List.mem_cons_self ..)
        rw [List.map_cons, List.sum_cons]
        omega
  have whole := above 0 (by decide) fun r _ => Nat.zero_le _
  rwa [Nat.zero_add] at whole

theorem contains_eq (word : r.base + r.size < 2 ^ 64) :
    r.contains addr = .ok (decide (r.base ≤ addr ∧ addr < r.base + r.size)) := by
  simp only [contains, stop_eq word, ok_bind, pure_eq_ok]
  by_cases lower : r.base ≤ addr <;> simp [lower]

theorem Inside.refl (r : Range) : r.Inside r := .inr ⟨Nat.le_refl _, Nat.le_refl _⟩

theorem Inside.trans (inner : r.Inside other) (outer : other.Inside high) : r.Inside high := by
  unfold Inside at *
  omega

theorem Before.of_inside (before : r.Before other) (left : low.Inside r) (right : high.Inside other) :
    low.Before high := by
  unfold Before Inside at *
  omega

theorem ofBounds_eq_ok {start stop : Nat} :
    ofBounds start stop = .ok r ↔ start ≤ stop ∧ r = ⟨start, stop - start⟩ := by
  simp only [ofBounds, bind_eq_ok, Word.sub_eq_ok, pure_eq_ok, Except.ok.injEq]
  constructor
  · rintro ⟨size, ⟨le, rfl⟩, rfl⟩
    exact ⟨le, rfl⟩
  · rintro ⟨le, rfl⟩
    exact ⟨_, ⟨le, rfl⟩, rfl⟩

theorem pageAligned_inside (aligned : r.pageAligned = .ok inner) : inner.Inside r := by
  obtain ⟨start, rounded, further⟩ := bind_eq_ok.mp aligned
  obtain ⟨stop, sum, rest⟩ := bind_eq_ok.mp further
  obtain ⟨belowLast, _⟩ := Address.alignUp_page_eq_ok.mp rounded
  obtain ⟨word, _⟩ := Word.add_eq_ok.mp sum
  obtain rfl := Except.ok.inj ((pageAligned_eq word belowLast).symm.trans aligned)
  have lower := Nat.div_add_mod (r.base + pageSize - 1) pageSize
  have short := Nat.mod_lt (r.base + pageSize - 1) pageSize_pos
  have upper := Nat.div_mul_le_self (r.base + r.size) pageSize
  have first : r.firstFrame = (r.base + pageSize - 1) / pageSize := rfl
  rw [← first, Nat.mul_comm] at lower
  unfold Inside
  simp only [wholePages, Nat.sub_mul]
  omega

theorem pageAligned_paged (aligned : r.pageAligned = .ok inner) : inner.Paged := by
  obtain ⟨start, rounded, further⟩ := bind_eq_ok.mp aligned
  obtain ⟨stop, sum, rest⟩ := bind_eq_ok.mp further
  obtain ⟨belowLast, _⟩ := Address.alignUp_page_eq_ok.mp rounded
  obtain ⟨word, _⟩ := Word.add_eq_ok.mp sum
  obtain rfl := Except.ok.inj ((pageAligned_eq word belowLast).symm.trans aligned)
  exact ⟨Nat.dvd_mul_left _ _, Nat.dvd_mul_left _ _⟩

theorem Paged.whole (paged : r.Paged) :
    (⟨r.firstFrame * pageSize, r.wholePages * pageSize⟩ : Range) = r := by
  obtain ⟨base, size⟩ := r
  obtain ⟨⟨first, rfl⟩, ⟨pages, rfl⟩⟩ := paged
  have positive := pageSize_pos
  have firstFrame : Range.firstFrame ⟨pageSize * first, pageSize * pages⟩ = first := by
    rw [Range.firstFrame, Nat.add_sub_assoc positive, Nat.mul_add_div positive,
      Nat.div_eq_of_lt (Nat.sub_one_lt positive.ne'), Nat.add_zero]
  have wholePages : Range.wholePages ⟨pageSize * first, pageSize * pages⟩ = pages := by
    rw [Range.wholePages, firstFrame]
    simp only [← Nat.mul_add, Nat.mul_div_cancel_left _ positive, Nat.add_sub_cancel_left]
  rw [firstFrame, wholePages, Nat.mul_comm, Nat.mul_comm pages]

theorem splitAt_inside (split : r.splitAt addr = .ok (low, high)) :
    low.Inside r ∧ high.Inside r ∧ low.Before high := by
  unfold splitAt at split
  split at split
  · obtain ⟨rfl, rfl⟩ := Prod.mk.inj (Except.ok.inj split)
    exact ⟨.inl rfl, .refl _, .inl rfl⟩
  · obtain ⟨stop, sum, rest⟩ := bind_eq_ok.mp split
    obtain ⟨_, rfl⟩ := Word.add_eq_ok.mp sum
    split at rest
    · obtain ⟨rfl, rfl⟩ := Prod.mk.inj (Except.ok.inj rest)
      exact ⟨.refl _, .inl rfl, .inr (.inl rfl)⟩
    · obtain ⟨below, lower, rest⟩ := bind_eq_ok.mp rest
      obtain ⟨above, upper, rest⟩ := bind_eq_ok.mp rest
      obtain ⟨_, rfl⟩ := ofBounds_eq_ok.mp lower
      obtain ⟨_, rfl⟩ := ofBounds_eq_ok.mp upper
      obtain ⟨rfl, rfl⟩ := Prod.mk.inj (Except.ok.inj rest)
      unfold Inside Before
      simp only
      omega

theorem HasFrame.size_pos (has : r.HasFrame frame) : 0 < r.size := by
  have := pageSize_pos
  simp only [HasFrame, Nat.succ_mul] at has
  omega

theorem firstFrame_le_iff : r.firstFrame ≤ frame ↔ r.base ≤ frame * pageSize := by
  have positive := pageSize_pos
  rw [firstFrame, ← Nat.lt_succ_iff, Nat.div_lt_iff_lt_mul positive, Nat.succ_mul]
  omega

/-- Shrinking a range to whole pages costs it none of its whole frames. -/
theorem pageAligned_hasFrame (aligned : r.pageAligned = .ok inner) :
    inner.HasFrame frame ↔ r.HasFrame frame := by
  obtain ⟨start, rounded, further⟩ := bind_eq_ok.mp aligned
  obtain ⟨stop, sum, rest⟩ := bind_eq_ok.mp further
  obtain ⟨belowLast, _⟩ := Address.alignUp_page_eq_ok.mp rounded
  obtain ⟨word, _⟩ := Word.add_eq_ok.mp sum
  obtain rfl := Except.ok.inj ((pageAligned_eq word belowLast).symm.trans aligned)
  simp only [HasFrame, ← firstFrame_le_iff, ← Nat.add_mul, wholePages,
    Nat.mul_le_mul_right_iff pageSize_pos, ← Nat.le_div_iff_mul_le pageSize_pos]
  omega

/-- Splitting a range loses the frame that the cut goes through, and no other. -/
theorem splitAt_hasFrame (split : r.splitAt addr = .ok (low, high)) :
    (low.HasFrame frame ↔ r.HasFrame frame ∧ (frame + 1) * pageSize ≤ addr) ∧
      (high.HasFrame frame ↔ r.HasFrame frame ∧ addr ≤ frame * pageSize) := by
  have positive := pageSize_pos
  have length : (frame + 1) * pageSize = frame * pageSize + pageSize := Nat.succ_mul ..
  simp only [HasFrame, length]
  unfold splitAt at split
  split at split
  · obtain ⟨rfl, rfl⟩ := Prod.mk.inj (Except.ok.inj split)
    simp only
    omega
  · obtain ⟨stop, sum, rest⟩ := bind_eq_ok.mp split
    obtain ⟨_, rfl⟩ := Word.add_eq_ok.mp sum
    split at rest
    · obtain ⟨rfl, rfl⟩ := Prod.mk.inj (Except.ok.inj rest)
      simp only
      omega
    · obtain ⟨below, lower, rest⟩ := bind_eq_ok.mp rest
      obtain ⟨above, upper, rest⟩ := bind_eq_ok.mp rest
      obtain ⟨_, rfl⟩ := ofBounds_eq_ok.mp lower
      obtain ⟨_, rfl⟩ := ofBounds_eq_ok.mp upper
      obtain ⟨rfl, rfl⟩ := Prod.mk.inj (Except.ok.inj rest)
      simp only
      omega

/-- A range of whole pages has the frames that its addresses lie in. -/
theorem Paged.hasFrame (paged : r.Paged) (holds : r.Holds addr) : r.HasFrame (addr / pageSize) := by
  obtain ⟨base, size⟩ := r
  obtain ⟨⟨first, rfl⟩, ⟨pages, rfl⟩⟩ := paged
  obtain ⟨lower, upper⟩ := holds
  have below : first ≤ addr / pageSize :=
    (Nat.le_div_iff_mul_le pageSize_pos).mpr (by rwa [Nat.mul_comm])
  have above : addr / pageSize < first + pages :=
    (Nat.div_lt_iff_lt_mul pageSize_pos).mpr (by rwa [Nat.mul_comm, Nat.mul_add])
  rw [HasFrame, ← Nat.mul_add, Nat.mul_comm pageSize first, Nat.mul_comm pageSize (first + pages)]
  exact ⟨Nat.mul_le_mul_right _ below, Nat.mul_le_mul_right _ above⟩

theorem merge_eq_ok (merged : r.merge other = .ok outer) :
    outer.base = min r.base other.base ∧
      outer.base + outer.size = max (r.base + r.size) (other.base + other.size) := by
  obtain ⟨stop, sum, rest⟩ := bind_eq_ok.mp merged
  obtain ⟨_, rfl⟩ := Word.add_eq_ok.mp sum
  obtain ⟨otherStop, sum, rest⟩ := bind_eq_ok.mp rest
  obtain ⟨_, rfl⟩ := Word.add_eq_ok.mp sum
  obtain ⟨le, rfl⟩ := ofBounds_eq_ok.mp rest
  exact ⟨rfl, Nat.add_sub_of_le le⟩

theorem not_holds_of_isEmpty (empty : r.isEmpty = true) : ¬ r.Holds addr := by
  have size : r.size = 0 := beq_iff_eq.mp empty
  simp only [Holds]
  omega

theorem overlaps_eq (word : r.base + r.size < 2 ^ 64) (otherWord : other.base + other.size < 2 ^ 64) :
    r.overlaps other =
      .ok (decide (r.base < other.base + other.size ∧ other.base < r.base + r.size)) := by
  simp only [overlaps, stop_eq word, stop_eq otherWord, ok_bind, pure_eq_ok]
  by_cases lower : r.base < other.base + other.size <;> simp [lower]

theorem merge_eq (word : r.base + r.size < 2 ^ 64) (otherWord : other.base + other.size < 2 ^ 64) :
    r.merge other = .ok ⟨min r.base other.base,
      max (r.base + r.size) (other.base + other.size) - min r.base other.base⟩ := by
  have ordered : min r.base other.base ≤ max (r.base + r.size) (other.base + other.size) := by omega
  simp only [merge, stop_eq word, stop_eq otherWord, ok_bind]
  exact ofBounds_eq_ok.mpr ⟨ordered, rfl⟩

end ZonedMemory.Range
