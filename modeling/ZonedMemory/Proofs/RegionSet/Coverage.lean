import ZonedMemory.Proofs.RegionSet

namespace ZonedMemory.RegionSet

/-!
The addresses of a set. Adding a range always has an answer, and the set then holds the addresses of
both; taking a range away never leaves one of its addresses behind, not even when it is refused.
-/

def Bounded (ranges : List Range) : Prop := ∀ r ∈ ranges, r.base + r.size < 2 ^ 64

def Covers (ranges : List Range) (addr : Nat) : Prop := ∃ r ∈ ranges, r.Holds addr

variable {ranges rest front back : List Range} {first added removed joined : Range}
  {s next : RegionSet} {count addr : Nat} {answer : Except RegionsFull Unit}

theorem bounded_cons :
    Bounded (first :: rest) ↔ first.base + first.size < 2 ^ 64 ∧ Bounded rest :=
  List.forall_mem_cons

theorem bounded_append : Bounded (front ++ back) ↔ Bounded front ∧ Bounded back :=
  List.forall_mem_append

@[simp] theorem covers_nil : ¬ Covers [] addr := by
  simp [Covers]

@[simp] theorem covers_cons : Covers (first :: rest) addr ↔ first.Holds addr ∨ Covers rest addr := by
  simp [Covers]

@[simp] theorem covers_append : Covers (front ++ back) addr ↔ Covers front addr ∨ Covers back addr := by
  simp [Covers, or_and_right, exists_or]

/-- Two ranges that overlap or touch leave no gap between them. -/
theorem holds_merged (merged : added.merge first = .ok joined)
    (meets : added.base ≤ first.base + first.size) (back : first.base ≤ added.base + added.size) :
    joined.Holds addr ↔ added.Holds addr ∨ first.Holds addr := by
  obtain ⟨base, stop⟩ := Range.merge_eq_ok merged
  simp only [Range.Holds]
  omega

theorem absorb_covers {result : List Range} (absorbed : absorb added ranges = .ok result) :
    Covers result addr ↔ added.Holds addr ∨ Covers ranges addr := by
  induction ranges generalizing added result with
  | nil =>
      obtain rfl := Except.ok.inj absorbed
      exact covers_cons
  | cons first rest ih =>
      cases absorb_cons_step absorbed with
      | pass gap later =>
          rw [covers_cons, covers_cons, ih later]
          exact or_left_comm
      | place gap => exact covers_cons
      | join meets back merged later =>
          rw [ih later, covers_cons, ← or_assoc, holds_merged merged meets back]

theorem absorb_eq (bounded : Bounded ranges) (word : added.base + added.size < 2 ^ 64) :
    ∃ result, absorb added ranges = .ok result ∧ Bounded result := by
  induction ranges generalizing added with
  | nil => exact ⟨[added], rfl, bounded_cons.mpr ⟨word, bounded⟩⟩
  | cons first rest ih =>
      obtain ⟨firstWord, restBounded⟩ := bounded_cons.mp bounded
      simp only [absorb, Range.stop_eq firstWord, Range.stop_eq word, ok_bind]
      by_cases past : first.base + first.size < added.base
      · obtain ⟨result, absorbed, resultBounded⟩ := ih restBounded word
        rw [if_pos past, absorbed]
        exact ⟨first :: result, rfl, bounded_cons.mpr ⟨firstWord, resultBounded⟩⟩
      · rw [if_neg past]
        by_cases before : added.base + added.size < first.base
        · rw [if_pos before]
          exact ⟨added :: first :: rest, rfl, bounded_cons.mpr ⟨word, bounded⟩⟩
        · obtain ⟨joined, merged⟩ : ∃ joined, added.merge first = .ok joined :=
            ⟨_, Range.merge_eq word firstWord⟩
          obtain ⟨base, stop⟩ := Range.merge_eq_ok merged
          rw [if_neg before, merged]
          exact ih restBounded (by omega)

theorem add_covers (computed : s.add added = .ok (.ok (), next)) :
    Covers next.ranges addr ↔ added.Holds addr ∨ Covers s.ranges addr := by
  rcases add_cases computed with ⟨empty, _, rfl⟩ | ⟨_, ranges, absorbed, ⟨_, refused, _⟩ | ⟨_, _, rfl⟩⟩
  · simp [Range.not_holds_of_isEmpty (beq_iff_eq.mpr empty)]
  · cases refused
  · exact absorb_covers absorbed

theorem add_refused (computed : s.add added = .ok (answer, next)) (refused : answer ≠ .ok ()) :
    next = s := by
  rcases add_cases computed with ⟨_, done, _⟩ | ⟨_, ranges, _, ⟨_, _, same⟩ | ⟨_, done, _⟩⟩
  · exact absurd done refused
  · exact same
  · exact absurd done refused

/-- A range that is added is covered afterwards, unless the set had no room and stayed as it was. -/
theorem add_eq (bounded : Bounded s.ranges) (word : added.base + added.size < 2 ^ 64) :
    ∃ answer next, s.add added = .ok (answer, next) ∧ Bounded next.ranges ∧
      (answer = .ok () → ∀ addr, Covers next.ranges addr ↔ added.Holds addr ∨ Covers s.ranges addr) ∧
      (answer ≠ .ok () → next = s) := by
  obtain ⟨answer, next, computed, nextBounded⟩ :
      ∃ answer next, s.add added = .ok (answer, next) ∧ Bounded next.ranges := by
    obtain ⟨ranges, absorbed, rangesBounded⟩ := absorb_eq bounded word
    simp only [add, absorbed, ok_bind]
    split
    · exact ⟨_, _, rfl, bounded⟩
    · split
      · exact ⟨_, _, rfl, bounded⟩
      · exact ⟨_, _, rfl, rangesBounded⟩
  refine ⟨answer, next, computed, nextBounded, fun done addr => ?_, add_refused computed⟩
  subst done
  exact add_covers computed

theorem covers_below (meets : removed.base < first.base + first.size) :
    Covers (below first removed) addr ↔ first.Holds addr ∧ addr < removed.base := by
  unfold below
  by_cases lower : first.base < removed.base
  · simp only [if_pos lower, covers_cons, covers_nil, or_false, Range.Holds]
    omega
  · simp only [if_neg lower, covers_nil, Range.Holds, false_iff]
    omega

theorem below_inside (meets : removed.base < first.base + first.size)
    (covers : Covers (below first removed) addr) :
    Covers (first :: rest) addr ∧ ¬ removed.Holds addr := by
  obtain ⟨holds, under⟩ := (covers_below meets).mp covers
  exact ⟨covers_cons.mpr (.inl holds), fun removedHolds => Nat.not_le.mpr under removedHolds.1⟩

theorem holds_above (longer : removed.base + removed.size < first.base + first.size)
    (meets : first.base < removed.base + removed.size) :
    (above first removed).Holds addr ↔ first.Holds addr ∧ removed.base + removed.size ≤ addr := by
  simp only [above, Range.Holds]
  omega

theorem below_bounded (word : removed.base < 2 ^ 64) : Bounded (below first removed) := by
  intro r member
  unfold below at member
  split at member
  · obtain rfl := List.mem_singleton.mp member
    simp only
    omega
  · cases member

/-- What cutting leaves over: nothing of what was removed, and all the rest unless it was refused. -/
structure Leaves (removed : Range) (ranges : List Range) (answer : Except RegionsFull Unit)
    (result : List Range) : Prop where
  bounded : Bounded result
  inside : ∀ addr, Covers result addr → Covers ranges addr ∧ ¬ removed.Holds addr
  whole : answer = .ok () → ∀ addr, Covers ranges addr → ¬ removed.Holds addr → Covers result addr

/-- Nothing of what is cut out is left, and nothing comes in. -/
theorem cut_inside {result : List Range} (computed : cut removed count ranges = .ok (answer, result))
    (normal : Normal ranges) (covers : Covers result addr) : Covers ranges addr ∧ ¬ removed.Holds addr := by
  induction ranges generalizing count answer result with
  | nil =>
      obtain ⟨_, rfl⟩ := Prod.mk.inj (Except.ok.inj computed)
      exact absurd covers covers_nil
  | cons first rest ih =>
      obtain ⟨_, after, restNormal⟩ := normal_cons.mp normal
      have further (inside : Covers rest addr ∧ ¬ removed.Holds addr) :
          Covers (first :: rest) addr ∧ ¬ removed.Holds addr :=
        ⟨covers_cons.mpr (.inr inside.1), inside.2⟩
      cases cut_cons_step computed with
      | skip misses later =>
          rcases covers_cons.mp covers with holds | covers
          · refine ⟨covers_cons.mpr (.inl holds), fun removedHolds => ?_⟩
            simp only [Range.Holds] at holds removedHolds
            omega
          · exact further (ih later restNormal covers)
      | trim meets ended later =>
          rcases covers_append.mp covers with lower | covers
          · exact below_inside meets.2 lower
          · exact further (ih later restNormal covers)
      | lost meets longer full =>
          rcases covers_append.mp covers with lower | covers
          · exact below_inside meets.2 lower
          -- no later range meets the cut
          · refine further ⟨covers, fun removedHolds => ?_⟩
            obtain ⟨r, member, holds⟩ := covers
            have beyond := after r member
            simp only [Range.Holds] at holds removedHolds
            omega
      | split meets longer room later =>
          rcases covers_append.mp covers with lower | covers
          · exact below_inside meets.2 lower
          · rcases covers_cons.mp covers with upper | covers
            · obtain ⟨holds, past⟩ := (holds_above longer meets.1).mp upper
              exact ⟨covers_cons.mpr (.inl holds), fun removedHolds => Nat.not_lt.mpr past removedHolds.2⟩
            · exact further (ih later restNormal covers)

theorem cut_whole {result : List Range} (computed : cut removed count ranges = .ok (.ok (), result))
    (covers : Covers ranges addr) (outside : ¬ removed.Holds addr) : Covers result addr := by
  generalize accepted : (.ok () : Except RegionsFull Unit) = answer at computed
  induction ranges generalizing count result with
  | nil => exact absurd covers covers_nil
  | cons first rest ih =>
      cases cut_cons_step computed with
      | skip misses later =>
          rcases covers_cons.mp covers with holds | covers
          · exact covers_cons.mpr (.inl holds)
          · exact covers_cons.mpr (.inr (ih covers later))
      | trim meets ended later =>
          rcases covers_cons.mp covers with holds | covers
          · refine covers_append.mpr (.inl ((covers_below meets.2).mpr ⟨holds, ?_⟩))
            simp only [Range.Holds] at holds outside
            omega
          · exact covers_append.mpr (.inr (ih covers later))
      | lost meets longer full => cases accepted
      | split meets longer room later =>
          rcases covers_cons.mp covers with holds | covers
          · by_cases under : addr < removed.base
            · exact covers_append.mpr (.inl ((covers_below meets.2).mpr ⟨holds, under⟩))
            · refine covers_append.mpr (.inr (covers_cons.mpr (.inl ?_)))
              refine (holds_above longer meets.1).mpr ⟨holds, ?_⟩
              simp only [Range.Holds] at outside
              omega
          · exact covers_append.mpr (.inr (covers_cons.mpr (.inr (ih covers later))))

theorem cut_bounded (count : Nat) (bounded : Bounded ranges) (word : removed.base + removed.size < 2 ^ 64) :
    ∃ answer result, cut removed count ranges = .ok (answer, result) ∧ Bounded result := by
  induction ranges generalizing count with
  | nil => exact ⟨.ok (), [], rfl, bounded⟩
  | cons first rest ih =>
      obtain ⟨firstWord, restBounded⟩ := bounded_cons.mp bounded
      have lower : Bounded (below first removed) := below_bounded (by omega)
      rw [cut_cons firstWord word]
      split
      · split
        -- the cut ends inside `first`, perhaps without room for the part above it, or goes on past it
        · split
          · exact ⟨_, _, rfl, bounded_append.mpr ⟨lower, restBounded⟩⟩
          · obtain ⟨answer, left, cutting, leftBounded⟩ := ih _ restBounded
            rw [cutting]
            refine ⟨_, _, rfl, bounded_append.mpr ⟨lower, bounded_cons.mpr ⟨?_, leftBounded⟩⟩⟩
            simp only [above]
            omega
        · obtain ⟨answer, left, cutting, leftBounded⟩ := ih _ restBounded
          rw [cutting]
          exact ⟨_, _, rfl, bounded_append.mpr ⟨lower, leftBounded⟩⟩
      · obtain ⟨answer, left, cutting, leftBounded⟩ := ih _ restBounded
        rw [cutting]
        exact ⟨_, _, rfl, bounded_cons.mpr ⟨firstWord, leftBounded⟩⟩

/-- Whatever is answered, a range that is taken away is gone. -/
theorem subtract_inside (computed : s.subtract removed = .ok (answer, next)) (normal : Normal s.ranges)
    (covers : Covers next.ranges addr) : Covers s.ranges addr ∧ ¬ removed.Holds addr := by
  rcases subtract_cases computed with ⟨empty, _, rfl⟩ | ⟨_, cutting⟩
  · exact ⟨covers, Range.not_holds_of_isEmpty (beq_iff_eq.mpr empty)⟩
  · exact cut_inside cutting normal covers

theorem subtract_covers (computed : s.subtract removed = .ok (.ok (), next)) (normal : Normal s.ranges) :
    Covers next.ranges addr ↔ Covers s.ranges addr ∧ ¬ removed.Holds addr := by
  refine ⟨subtract_inside computed normal, fun kept => ?_⟩
  rcases subtract_cases computed with ⟨_, _, rfl⟩ | ⟨_, cutting⟩
  · exact kept.1
  · exact cut_whole cutting kept.1 kept.2

theorem subtract_eq (bounded : Bounded s.ranges) (normal : Normal s.ranges)
    (word : removed.base + removed.size < 2 ^ 64) :
    ∃ answer next, s.subtract removed = .ok (answer, next) ∧ Leaves removed s.ranges answer next.ranges := by
  obtain ⟨answer, next, computed, nextBounded⟩ :
      ∃ answer next, s.subtract removed = .ok (answer, next) ∧ Bounded next.ranges := by
    unfold subtract
    split
    · exact ⟨_, _, rfl, bounded⟩
    · obtain ⟨answer, ranges, cutting, rangesBounded⟩ := cut_bounded s.size bounded word
      rw [cutting]
      exact ⟨answer, ⟨ranges⟩, rfl, rangesBounded⟩
  refine ⟨answer, next, computed, nextBounded, fun addr => subtract_inside computed normal, ?_⟩
  intro done addr covers outside
  subst done
  exact (subtract_covers computed normal).mpr ⟨covers, outside⟩

variable {other : Range} {others : List Range}

theorem Normal.base_le (normal : Normal (first :: rest)) (covers : Covers (first :: rest) addr) :
    first.base ≤ addr := by
  obtain ⟨_, after, _⟩ := normal_cons.mp normal
  rcases covers_cons.mp covers with holds | ⟨r, member, holds⟩
  · exact holds.1
  · have beyond := after r member
    have above := holds.1
    omega

theorem Normal.covers_base (normal : Normal (first :: rest)) : Covers (first :: rest) first.base :=
  covers_cons.mpr (.inl ⟨Nat.le_refl _, Nat.lt_add_of_pos_right (normal_cons.mp normal).1⟩)

theorem Normal.covers_rest (normal : Normal (first :: rest)) :
    Covers rest addr ↔ Covers (first :: rest) addr ∧ first.base + first.size < addr := by
  obtain ⟨_, after, _⟩ := normal_cons.mp normal
  constructor
  · intro covers
    obtain ⟨r, member, holds⟩ := covers
    exact ⟨covers_cons.mpr (.inr ⟨r, member, holds⟩), (after r member).trans_le holds.1⟩
  · intro above
    obtain ⟨covers, past⟩ := above
    rcases covers_cons.mp covers with holds | covers
    · exact absurd holds.2 (Nat.not_lt.mpr (Nat.le_of_lt past))
    · exact covers

/-- A range of a normal form ends at a gap, so it is as long as anything that lies inside. -/
theorem Normal.stop_le (normal : Normal (other :: others)) (base : first.base = other.base)
    (inside : ∀ addr, Covers (first :: rest) addr → Covers (other :: others) addr) :
    first.base + first.size ≤ other.base + other.size := by
  by_contra longer
  have within : first.Holds (other.base + other.size) := by
    simp only [Range.Holds]
    omega
  rcases covers_cons.mp (inside _ (covers_cons.mpr (.inl within))) with holds | covers
  · exact absurd holds.2 (Nat.lt_irrefl _)
  · exact absurd (normal.covers_rest.mp covers).2 (Nat.lt_irrefl _)

/-- Sets in normal form that have the same addresses have the same ranges. -/
theorem Normal.ext (normal : Normal ranges) (otherNormal : Normal others)
    (same : ∀ addr, Covers ranges addr ↔ Covers others addr) : ranges = others := by
  induction ranges generalizing others with
  | nil =>
      cases others with
      | nil => rfl
      | cons other others => exact absurd ((same _).mpr otherNormal.covers_base) covers_nil
  | cons first rest ih =>
      cases others with
      | nil => exact absurd ((same _).mp normal.covers_base) covers_nil
      | cons other others =>
          have base : first.base = other.base :=
            Nat.le_antisymm (normal.base_le ((same _).mpr otherNormal.covers_base))
              (otherNormal.base_le ((same _).mp normal.covers_base))
          have stop : first.base + first.size = other.base + other.size :=
            Nat.le_antisymm (otherNormal.stop_le base fun addr => (same addr).mp)
              (normal.stop_le base.symm fun addr => (same addr).mpr)
          have size : first.size = other.size := by omega
          have later : rest = others := by
            apply ih (normal_cons.mp normal).2.2 (normal_cons.mp otherNormal).2.2
            intro addr
            rw [normal.covers_rest, otherNormal.covers_rest, same, stop]
          have head : first = other := congrArg₂ Range.mk base size
          rw [head, later]

theorem totalSize_eq (normal : Normal s.ranges) (bounded : Bounded s.ranges) :
    s.totalSize = .ok (s.ranges.map Range.size).sum :=
  Word.sum_eq_ok.mpr ⟨Range.total_word bounded (normal.spaced.imp Nat.le_of_lt), rfl⟩

end ZonedMemory.RegionSet
