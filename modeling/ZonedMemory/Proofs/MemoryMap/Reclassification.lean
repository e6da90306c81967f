import ZonedMemory.Proofs.MemoryMap.Classification
import ZonedMemory.Proofs.RegionSet.Room

namespace ZonedMemory.MemoryMap

/-!
Moving a range from one kind to another. The range is gone from the first kind in any case. It is with
the second kind afterwards unless one of the two sets refuses its part.
-/

variable {m next : MemoryMap} {source target : MemoryKind} {range : Range} {addr : Nat}
  {answer : Except RegionsFull Unit}

theorem Built.sized (built : m.Built) : m.Each RegionSet.Sized :=
  built.each RegionSet.sized_kept (Nat.zero_le _)

/-- A move ends with a refused removal, or with what adding to the second set comes to. -/
theorem reclassify_cases (computed : m.reclassify range source target = .ok (answer, next)) :
    (∃ left, (m.of source).subtract range = .ok (answer, left) ∧ answer ≠ .ok () ∧
        next = m.set source left) ∨
      ∃ left gained, (m.of source).subtract range = .ok (.ok (), left) ∧
        ((m.set source left).of target).add range = .ok (answer, gained) ∧
        next = (m.set source left).set target gained := by
  obtain ⟨⟨result, between⟩, removed, computed⟩ := bind_eq_ok.mp computed
  obtain ⟨left, subtracted, rfl⟩ := remove_eq_ok.mp removed
  cases result with
  | error refusal =>
      obtain ⟨rfl, rfl⟩ := Prod.mk.inj (Except.ok.inj computed)
      exact .inl ⟨left, subtracted, nofun, rfl⟩
  | ok done =>
      obtain ⟨gained, added, rfl⟩ := insert_eq_ok.mp computed
      exact .inr ⟨left, gained, subtracted, added, rfl⟩

theorem reclassify_exists (normal : m.Normal) (bounded : RegionSet.Bounded (m.of source).ranges)
    (boundedToo : RegionSet.Bounded (m.of target).ranges) (word : range.base + range.size < 2 ^ 64) :
    ∃ answer next, m.reclassify range source target = .ok (answer, next) := by
  obtain ⟨result, left, subtracted, leaves⟩ := RegionSet.subtract_eq bounded (normal source) word
  have between : RegionSet.Bounded ((m.set source left).of target).ranges := by
    by_cases same : target = source
    · rw [same, of_set_self]
      exact leaves.bounded
    · rwa [of_set_of_ne same]
  obtain ⟨answer, gained, added, _⟩ := RegionSet.add_eq between word
  rw [reclassify, remove_eq_ok.mpr ⟨left, subtracted, rfl⟩]
  cases result with
  | error refusal => exact ⟨.error refusal, _, rfl⟩
  | ok done =>
      exact ⟨answer, (m.set source left).set target gained, insert_eq_ok.mpr ⟨gained, added, rfl⟩⟩

theorem reclassify_others (computed : m.reclassify range source target = .ok (answer, next))
    {kind : MemoryKind} (other : kind ≠ source) (another : kind ≠ target) : next.of kind = m.of kind := by
  rcases reclassify_cases computed with ⟨left, _, _, rfl⟩ | ⟨left, gained, _, _, rfl⟩
  · exact of_set_of_ne other
  · rw [of_set_of_ne another, of_set_of_ne other]

theorem reclassify_entered (computed : m.reclassify range source target = .ok (.ok (), next))
    (normal : m.Normal) : next.Covers target addr ↔ range.Holds addr ∨ m.Covers target addr := by
  rcases reclassify_cases computed with ⟨left, _, refused, _⟩ | ⟨left, gained, subtracted, added, rfl⟩
  · exact absurd rfl refused
  · rw [Covers, of_set_self, RegionSet.add_covers added]
    by_cases same : target = source
    · rw [same, of_set_self, RegionSet.subtract_covers subtracted (normal source), Covers]
      tauto
    · rw [of_set_of_ne same, Covers]

/-- The set that a range is moved out of ends up as taking the range away leaves it, unless the range is
moved back into it. -/
theorem reclassify_subtracts (computed : m.reclassify range source target = .ok (answer, next))
    (gone : source ≠ target ∨ answer ≠ .ok ()) :
    ∃ result, (m.of source).subtract range = .ok (result, next.of source) ∧
      (answer = .ok () → result = .ok ()) := by
  rcases reclassify_cases computed with ⟨left, subtracted, _, rfl⟩ | ⟨left, gained, subtracted, added, rfl⟩
  · rw [of_set_self]
    exact ⟨answer, subtracted, id⟩
  · refine ⟨.ok (), ?_, fun _ => rfl⟩
    by_cases same : source = target
    · subst same
      rw [of_set_self] at added ⊢
      rw [RegionSet.add_refused added (gone.resolve_left (not_not.mpr rfl))]
      exact subtracted
    · rw [of_set_of_ne same, of_set_self]
      exact subtracted

theorem reclassify_remains (computed : m.reclassify range source target = .ok (answer, next))
    (normal : m.Normal) (sized : m.Each RegionSet.Sized)
    (room : answer = .ok () ∨ ¬ (m.of source).Overhang range addr) (covers : m.Covers source addr)
    (outside : ¬ range.Holds addr) : next.Covers source addr := by
  by_cases gone : source ≠ target ∨ answer ≠ .ok ()
  · obtain ⟨result, subtracted, accepted⟩ := reclassify_subtracts computed gone
    rcases room with done | room
    · rw [accepted done] at subtracted
      exact (RegionSet.subtract_covers subtracted (normal source)).mpr ⟨covers, outside⟩
    · exact RegionSet.subtract_remains subtracted (normal source) (sized source) room covers outside
  · obtain ⟨same, done⟩ := not_or.mp gone
    obtain rfl := not_not.mp same
    obtain rfl := not_not.mp done
    exact (reclassify_entered computed normal).mpr (.inr covers)

theorem reclassify_refused_iff (computed : m.reclassify range source target = .ok (answer, next))
    (normal : m.Normal) (sized : m.Each RegionSet.Sized) :
    answer ≠ .ok () ↔
      0 < range.size ∧ ((m.of source).Unsplittable range ∨ (m.of target).Shut range) := by
  rcases reclassify_cases computed with ⟨left, subtracted, refused, rfl⟩ | ⟨left, gained, subtracted, added, rfl⟩
  · have some : 0 < range.size := by
      rcases RegionSet.subtract_cases subtracted with ⟨_, accepted, _⟩ | ⟨some, _⟩
      · exact absurd accepted refused
      · exact some
    have removal := RegionSet.subtract_refused_iff subtracted (normal source) (sized source) some
    exact ⟨fun _ => ⟨some, .inl (removal.mp refused)⟩, fun _ => refused⟩
  · by_cases some : 0 < range.size
    · have removal := RegionSet.subtract_refused_iff subtracted (normal source) (sized source) some
      have splits : ¬ (m.of source).Unsplittable range := removal.not.mp (not_not.mpr rfl)
      simp only [some, splits, true_and, false_or]
      by_cases same : target = source
      · subst same
        rw [of_set_self] at added
        rw [RegionSet.add_refused_iff added (RegionSet.subtract_normal subtracted (normal target))
          (RegionSet.sized_kept.subtract (sized target) subtracted) some]
        exact RegionSet.shut_subtract_iff subtracted (normal target) (sized target)
      · rw [of_set_of_ne same] at added
        exact RegionSet.add_refused_iff added (normal target) (sized target) some
    · rcases RegionSet.add_cases added with ⟨_, accepted, _⟩ | ⟨large, _⟩
      · simp only [some, accepted, ne_eq, not_true_eq_false, false_and]
      · exact absurd large some

theorem reclassify_refused (computed : m.reclassify range source target = .ok (answer, next))
    (refused : answer ≠ .ok ()) (different : source ≠ target) : next.of target = m.of target := by
  rcases reclassify_cases computed with ⟨left, _, _, rfl⟩ | ⟨left, gained, _, added, rfl⟩
  · exact of_set_of_ne different.symm
  · rw [of_set_self, RegionSet.add_refused added refused]
    exact of_set_of_ne different.symm

/-- A refused move leaves the map alone if there was nothing to move, or no other set to move it to. -/
theorem reclassify_unchanged (computed : m.reclassify range source target = .ok (answer, next))
    (refused : answer ≠ .ok ()) (normal : m.Normal) (sized : m.Each RegionSet.Sized)
    (idle : source = target ∧ ¬ (m.of source).Unsplittable range ∨
      ∀ addr, range.Holds addr → ¬ m.Covers source addr) : next = m := by
  obtain ⟨some, stuck⟩ := (reclassify_refused_iff computed normal sized).mp refused
  have splits : ¬ (m.of source).Unsplittable range := by
    rcases idle with ⟨_, splits⟩ | apart
    · exact splits
    · rintro ⟨_, r, member, lower, upper⟩
      refine apart range.base ⟨Nat.le_refl _, Nat.lt_add_of_pos_right some⟩ ⟨r, member, ?_⟩
      simp only [Range.Holds]
      omega
  rcases reclassify_cases computed with ⟨left, subtracted, _, _⟩ | ⟨left, gained, subtracted, added, rfl⟩
  · have removal := RegionSet.subtract_refused_iff subtracted (normal source) (sized source) some
    exact absurd (removal.mp refused) splits
  · have kept : left = m.of source := by
      apply RegionSet.subtract_uncovered subtracted (normal source)
      rcases idle with ⟨rfl, _⟩ | apart
      · exact fun addr => (stuck.resolve_left splits).uncovered
      · exact apart
    rw [RegionSet.add_refused added refused, set_of, kept, set_of]

/-- What moving a range comes to for the sets of all kinds. Nothing is said about the addresses above the
range in a range of a full set that would have to be split around it. -/
structure Shifted (m : MemoryMap) (source target : MemoryKind) (range : Range)
    (answer : Except RegionsFull Unit) (next : MemoryMap) : Prop where
  others : ∀ kind, kind ≠ source → kind ≠ target → next.of kind = m.of kind
  taken : source ≠ target ∨ answer ≠ .ok () → ∀ addr, next.Covers source addr →
    m.Covers source addr ∧ ¬ range.Holds addr
  remains : ∀ addr, answer = .ok () ∨ ¬ (m.of source).Overhang range addr → m.Covers source addr →
    ¬ range.Holds addr → next.Covers source addr
  refused_iff : answer ≠ .ok () ↔
    0 < range.size ∧ ((m.of source).Unsplittable range ∨ (m.of target).Shut range)
  entered : answer = .ok () → ∀ addr, next.Covers target addr ↔ range.Holds addr ∨ m.Covers target addr
  refused : answer ≠ .ok () → source ≠ target → next.of target = m.of target
  unchanged : answer ≠ .ok () → source = target ∧ ¬ (m.of source).Unsplittable range ∨
    (∀ addr, range.Holds addr → ¬ m.Covers source addr) → next = m

theorem reclassify_shifts (computed : m.reclassify range source target = .ok (answer, next))
    (normal : m.Normal) (sized : m.Each RegionSet.Sized) : m.Shifted source target range answer next where
  others _ := reclassify_others computed
  taken gone addr covers := by
    obtain ⟨result, subtracted, _⟩ := reclassify_subtracts computed gone
    exact RegionSet.subtract_inside subtracted (normal source) covers
  remains addr := reclassify_remains computed normal sized
  refused_iff := reclassify_refused_iff computed normal sized
  entered accepted addr := by
    subst accepted
    exact reclassify_entered computed normal
  refused := reclassify_refused computed
  unchanged refused := reclassify_unchanged computed refused normal sized

/-- An accepted move takes the range from one set and enters it in the other. A refused one enters it in
none, and it is gone from the first set all the same. -/
theorem reclassify_shifted (built : m.Built) (word : range.base + range.size < 2 ^ 64) :
    (RegionSet.Bounded (m.of source).ranges → RegionSet.Bounded (m.of target).ranges →
        ∃ answer next, m.reclassify range source target = .ok (answer, next)) ∧
      ∀ answer next, m.reclassify range source target = .ok (answer, next) →
        m.Shifted source target range answer next :=
  ⟨fun bounded boundedToo => reclassify_exists built.normal bounded boundedToo word,
    fun _ _ computed => reclassify_shifts computed built.normal built.sized⟩

/-- There is no room for the last page among the reserved ranges, so it ends up with no kind at all. -/
theorem reclassify_crowded :
    ∃ m next : MemoryMap, m.Built ∧ m.reclassify ⟨524288, 4096⟩ .usable .reserved = .ok (.error .full, next) ∧
      m.usable.ranges = [⟨524288, 4096⟩] ∧ next.usable.ranges = [] ∧ next.of .reserved = m.of .reserved := by
  have computed : ((ofBootEntries crowded).outcome.toOption.bind fun m =>
      (m.reclassify ⟨524288, 4096⟩ .usable .reserved).toOption.map fun moved =>
        decide (moved.1 = .error .full ∧ m.usable.ranges = [⟨524288, 4096⟩] ∧
          moved.2.usable.ranges = [] ∧ (moved.2.of .reserved).ranges = (m.of .reserved).ranges)) =
      some true := by
    decide +kernel
  obtain ⟨m, read, computed⟩ := Option.bind_eq_some_iff.mp computed
  obtain ⟨⟨answer, next⟩, moved, computed⟩ := Option.map_eq_some_iff.mp computed
  obtain ⟨rfl, usable, none, same⟩ := of_decide_eq_true computed
  exact ⟨m, next, .ofBootEntries (toOption_eq_some.mp read), toOption_eq_some.mp moved, usable, none,
    congrArg RegionSet.mk same⟩

theorem reclassify_shifted_crowded :
    ∃ m next : MemoryMap, m.Built ∧ 524288 + 4096 < 2 ^ 64 ∧
      m.reclassify ⟨524288, 4096⟩ .usable .reserved = .ok (.error .full, next) ∧
      m.Shifted .usable .reserved ⟨524288, 4096⟩ (.error .full) next ∧ next.usable.ranges = [] := by
  obtain ⟨m, next, built, moved, _, none, _⟩ := reclassify_crowded
  exact ⟨m, next, built, by decide, moved, (reclassify_shifted built (by decide)).2 _ next moved, none⟩

/-- The range of a refused move is not put back. -/
theorem not_all_unmoved :
    ¬ ∀ (m next : MemoryMap) (range : Range) (source target : MemoryKind) (refusal : RegionsFull),
      m.Built → range.base + range.size < 2 ^ 64 →
      m.reclassify range source target = .ok (.error refusal, next) →
      ∀ kind, next.of kind = m.of kind := by
  intro unmoved
  obtain ⟨m, next, built, moved, usable, none, _⟩ := reclassify_crowded
  have same := unmoved m next ⟨524288, 4096⟩ _ _ _ built (by decide) moved .usable
  have ranges : next.usable.ranges = m.usable.ranges := congrArg RegionSet.ranges same
  rw [usable, none] at ranges
  cases ranges

end ZonedMemory.MemoryMap
