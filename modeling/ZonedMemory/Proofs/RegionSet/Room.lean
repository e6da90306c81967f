import ZonedMemory.Proofs.RegionSet.Coverage

namespace ZonedMemory.RegionSet

/-!
Room in a set. A set never grows past its capacity. Only a full set refuses anything: to take in a
range that keeps a gap to all of its ranges, and to give up the middle of one of its ranges.
-/

/-- No further range fits, and the given one meets none that is there. -/
def Shut (s : RegionSet) (added : Range) : Prop :=
  s.size = capacity ∧ ∀ r ∈ s.ranges, r.Gapped added

/-- No further range fits, and one that is there sticks out on both sides of the given one. -/
def Unsplittable (s : RegionSet) (removed : Range) : Prop :=
  s.size = capacity ∧ ∃ r ∈ s.ranges, r.Encloses removed

/-- The address is above the given range, in a range of a full set that sticks out on both sides. -/
def Overhang (s : RegionSet) (removed : Range) (addr : Nat) : Prop :=
  s.size = capacity ∧ ∃ r ∈ s.ranges, r.Encloses removed ∧ r.Holds addr ∧
    removed.base + removed.size ≤ addr

def Sized (s : RegionSet) : Prop := s.size ≤ capacity

variable {ranges rest result : List Range} {first added removed : Range} {s next : RegionSet}
  {count addr : Nat} {answer : Except RegionsFull Unit}

/-- Absorbing makes a list longer only if there is a gap on both sides of what is added. -/
theorem absorb_length (absorbed : absorb added ranges = .ok result) (normal : Normal ranges) :
    (result.length = ranges.length + 1 ∧ ∀ r ∈ ranges, r.Gapped added) ∨
      result.length ≤ ranges.length ∧ ∃ r ∈ ranges, ¬ r.Gapped added := by
  induction ranges generalizing added result with
  | nil =>
      obtain rfl := Except.ok.inj absorbed
      exact .inl ⟨rfl, List.forall_mem_nil _⟩
  | cons first rest ih =>
      obtain ⟨_, after, restNormal⟩ := normal_cons.mp normal
      cases absorb_cons_step absorbed with
      | pass gap later =>
          rcases ih later restNormal with ⟨length, gapped⟩ | ⟨length, r, member, meets⟩
          · exact .inl ⟨congrArg (· + 1) length, List.forall_mem_cons.mpr ⟨.inl gap, gapped⟩⟩
          · exact .inr ⟨Nat.succ_le_succ length, r, List.mem_cons_of_mem _ member, meets⟩
      | place gap =>
          refine .inl ⟨rfl, List.forall_mem_cons.mpr ⟨.inr gap, fun r member => .inr ?_⟩⟩
          have := after r member
          omega
      | join meets back merged later =>
          have length : result.length ≤ rest.length + 1 := by
            rcases ih later restNormal with ⟨length, _⟩ | ⟨length, _⟩
            · exact Nat.le_of_eq length
            · exact Nat.le_succ_of_le length
          have touching : ¬ first.Gapped added := by
            unfold Range.Gapped
            omega
          exact .inr ⟨length, first, List.mem_cons_self, touching⟩

theorem below_length :
    (below first removed).length = if first.base < removed.base then 1 else 0 := by
  unfold below
  split <;> rfl

/-- The count says how many ranges the set has when the cut is done, those before the cut included. -/
theorem cut_length (computed : cut removed count ranges = .ok (answer, result))
    (counted : ranges.length ≤ count) (sized : count ≤ capacity) :
    result.length + count ≤ capacity + ranges.length := by
  induction ranges generalizing count answer result with
  | nil =>
      obtain ⟨_, rfl⟩ := Prod.mk.inj (Except.ok.inj computed)
      simpa using sized
  | cons first rest ih =>
      have one : (below first removed).length ≤ 1 := by
        rw [below_length]
        split <;> decide
      rw [List.length_cons] at counted ⊢
      cases cut_cons_step computed with
      | skip misses later =>
          have := ih later (by omega) sized
          rw [List.length_cons]
          omega
      | trim meets ended later =>
          have := ih later (by omega) (by omega)
          rw [List.length_append]
          omega
      | lost meets longer full =>
          rw [List.length_append]
          omega
      | split meets longer room later =>
          have := ih later (by omega) (by omega)
          rw [List.length_append, List.length_cons]
          omega

theorem sized_kept : Kept Sized where
  add sized computed := by
    rcases add_cases computed with ⟨_, _, rfl⟩ | ⟨_, ranges, _, ⟨_, _, rfl⟩ | ⟨room, _, rfl⟩⟩
    · exact sized
    · exact sized
    · exact room
  subtract sized computed := by
    rcases subtract_cases computed with ⟨_, _, rfl⟩ | ⟨_, cutting⟩
    · exact sized
    · exact Nat.le_of_add_le_add_right (cut_length cutting (Nat.le_refl _) sized)

theorem add_refused_iff (computed : s.add added = .ok (answer, next)) (normal : Normal s.ranges)
    (sized : s.Sized) (some : 0 < added.size) : answer ≠ .ok () ↔ s.Shut added := by
  rcases add_cases computed with ⟨empty, _⟩ | ⟨_, ranges, absorbed, fits⟩
  · exact absurd empty (Nat.ne_of_gt some)
  · have length := absorb_length absorbed normal
    have most : s.ranges.length ≤ capacity := sized
    constructor
    · intro refused
      obtain ⟨full, _⟩ := fits.resolve_right fun room => refused room.2.1
      rcases length with ⟨grown, gapped⟩ | ⟨short, _⟩
      · have room : capacity ≤ s.ranges.length := by omega
        exact ⟨Nat.le_antisymm most room, gapped⟩
      · omega
    · intro shut done
      obtain ⟨full, gapped⟩ := shut
      rcases length with ⟨grown, _⟩ | ⟨_, r, member, meets⟩
      · rcases fits with ⟨_, refused, _⟩ | ⟨room, _⟩
        · cases refused.symm.trans done
        · change s.ranges.length = capacity at full
          omega
      · exact meets (gapped r member)

/-- Nothing above a range that reaches past the start of a cut starts before the cut. -/
theorem Normal.none_encloses (normal : Normal (first :: rest))
    (meets : removed.base < first.base + first.size) : ¬ ∃ r ∈ rest, r.Encloses removed := by
  intro enclosed
  obtain ⟨r, member, lower, _⟩ := enclosed
  have := (normal_cons.mp normal).2.1 r member
  omega

/-- A cut is refused just if it would have to leave two parts of one range in a full set. -/
theorem cut_refused_iff (computed : cut removed count ranges = .ok (answer, result))
    (normal : Normal ranges) (sized : count ≤ capacity) :
    answer ≠ .ok () ↔ count = capacity ∧ ∃ r ∈ ranges, r.Encloses removed := by
  have several : 1 < capacity := by decide
  induction ranges generalizing count answer result with
  | nil =>
      obtain ⟨rfl, _⟩ := Prod.mk.inj (Except.ok.inj computed)
      simp
  | cons first rest ih =>
      obtain ⟨_, _, restNormal⟩ := normal_cons.mp normal
      have length : (below first removed).length = if first.base < removed.base then 1 else 0 :=
        below_length
      simp only [List.mem_cons, or_and_right, exists_or, exists_eq_left]
      cases cut_cons_step computed with
      | skip misses later =>
          have outside : ¬ first.Encloses removed := by
            intro encloses
            obtain ⟨lower, upper⟩ := encloses
            exact misses ⟨by omega, by omega⟩
          refine (ih later restNormal sized).trans ?_
          simp only [outside, false_or]
      | trim meets ended later =>
          have outside : ¬ first.Encloses removed := fun encloses => Nat.not_lt.mpr ended encloses.2
          have none := normal.none_encloses meets.2
          refine (ih later restNormal (by split at length <;> omega)).trans ?_
          simp only [outside, none, or_self, and_false]
      | lost meets longer full =>
          split at length
          · rename_i lower
            exact ⟨fun _ => ⟨by omega, .inl ⟨lower, longer⟩⟩, fun _ done => nomatch done⟩
          · omega
      | split meets longer room later =>
          have none := normal.none_encloses meets.2
          have roomy : ¬ (count = capacity ∧ first.Encloses removed) := by
            intro stuck
            obtain ⟨full, lower, _⟩ := stuck
            rw [if_pos lower] at length
            omega
          refine (ih later restNormal (by omega)).trans ?_
          simp only [none, and_false, or_false, roomy]

/-- A refused cut costs the set the part above of the range that it could not split, and no other. -/
theorem cut_refused_eq (computed : cut removed count ranges = .ok (answer, result))
    (refused : answer ≠ .ok ()) (normal : Normal ranges) (sized : count ≤ capacity) :
    ∃ front r back, ranges = front ++ r :: back ∧ r.Encloses removed ∧
      result = front ++ ⟨r.base, removed.base - r.base⟩ :: back := by
  obtain ⟨full, r, member, encloses⟩ := (cut_refused_iff computed normal sized).mp refused
  induction ranges generalizing result with
  | nil => cases member
  | cons first rest ih =>
      obtain ⟨lower, upper⟩ := encloses
      obtain ⟨_, _, restNormal⟩ := normal_cons.mp normal
      have later (meets : removed.base < first.base + first.size) : r = first :=
        (List.mem_cons.mp member).resolve_right fun inRest =>
          normal.none_encloses meets ⟨r, inRest, lower, upper⟩
      cases cut_cons_step computed with
      | @skip _ left misses cutting =>
          have inRest : r ∈ rest := by
            rcases List.mem_cons.mp member with rfl | inRest
            · exact absurd ⟨by omega, by omega⟩ misses
            · exact inRest
          obtain ⟨front, host, back, rfl, hosting, rfl⟩ := ih cutting restNormal inRest
          exact ⟨first :: front, host, back, rfl, hosting, rfl⟩
      | trim meets ended cutting =>
          obtain rfl := later meets.2
          omega
      | lost meets longer _ =>
          obtain rfl := later meets.2
          refine ⟨[], r, rest, rfl, ⟨lower, upper⟩, ?_⟩
          rw [below, if_pos lower]
          rfl
      | split meets longer room cutting =>
          obtain rfl := later meets.2
          have length : (below r removed).length = 1 := by rw [below_length, if_pos lower]
          omega

theorem subtract_refused_iff (computed : s.subtract removed = .ok (answer, next))
    (normal : Normal s.ranges) (sized : s.Sized) (some : 0 < removed.size) :
    answer ≠ .ok () ↔ s.Unsplittable removed := by
  rcases subtract_cases computed with ⟨empty, _⟩ | ⟨_, cutting⟩
  · exact absurd empty (Nat.ne_of_gt some)
  · exact cut_refused_iff cutting normal sized

/-- Every address stays that is not taken away, but for those in the part above that has no room. -/
theorem subtract_remains (computed : s.subtract removed = .ok (answer, next)) (normal : Normal s.ranges)
    (sized : s.Sized) (rooms : ¬ s.Overhang removed addr) (covers : Covers s.ranges addr)
    (outside : ¬ removed.Holds addr) : Covers next.ranges addr := by
  by_cases done : answer = .ok ()
  · subst done
    exact (subtract_covers computed normal).mpr ⟨covers, outside⟩
  · rcases subtract_cases computed with ⟨_, accepted, _⟩ | ⟨_, cutting⟩
    · exact absurd accepted done
    · obtain ⟨full, _⟩ := (cut_refused_iff cutting normal sized).mp done
      obtain ⟨front, r, back, before, encloses, after⟩ := cut_refused_eq cutting done normal sized
      rw [before, covers_append, covers_cons] at covers
      rw [after, covers_append, covers_cons]
      refine covers.imp_right (Or.imp_left fun holds => ?_)
      have under : ¬ removed.base + removed.size ≤ addr := fun above =>
        rooms ⟨full, r, by rw [before]; simp, encloses, holds, above⟩
      simp only [Range.Holds] at holds outside ⊢
      omega

/-- A cut that leaves nothing next to it has taken out whole ranges, if any. -/
theorem cut_gapped (computed : cut removed count ranges = .ok (.ok (), result))
    (gapped : ∀ r ∈ result, r.Gapped removed) :
    result.length ≤ ranges.length ∧ (result.length = ranges.length → result = ranges) := by
  generalize accepted : (.ok () : Except RegionsFull Unit) = answer at computed
  induction ranges generalizing count result with
  | nil =>
      obtain ⟨_, rfl⟩ := Prod.mk.inj (Except.ok.inj computed)
      exact ⟨Nat.le_refl _, fun _ => rfl⟩
  | cons first rest ih =>
      cases cut_cons_step computed with
      | skip misses later =>
          obtain ⟨short, same⟩ := ih (List.forall_mem_cons.mp gapped).2 later
          refine ⟨Nat.succ_le_succ short, fun length => ?_⟩
          rw [same (Nat.succ.inj length)]
      | @trim _ left meets ended later =>
          obtain ⟨lower, gapped⟩ := List.forall_mem_append.mp gapped
          obtain ⟨short, _⟩ := ih gapped later
          have none : below first removed = [] := by
            unfold below at lower ⊢
            split at lower
            · have touching := lower _ (List.mem_singleton_self _)
              simp only [Range.Gapped] at touching
              omega
            · rename_i none
              exact if_neg none
          rw [none, List.nil_append, List.length_cons]
          exact ⟨Nat.le_succ_of_le short, fun length => by omega⟩
      | lost meets longer full => cases accepted
      | split meets longer room later =>
          have touching := gapped (above first removed) (by simp)
          simp only [Range.Gapped, above] at touching
          omega

/-- Taking away what is not there changes nothing. -/
theorem subtract_uncovered (computed : s.subtract removed = .ok (.ok (), next)) (normal : Normal s.ranges)
    (apart : ∀ addr, removed.Holds addr → ¬ Covers s.ranges addr) : next = s := by
  apply congrArg RegionSet.mk
  apply (subtract_normal computed normal).ext normal
  intro addr
  rw [subtract_covers computed normal]
  exact and_iff_left_of_imp fun covers holds => apart addr holds covers

theorem Shut.uncovered (shut : s.Shut removed) (holds : removed.Holds addr) : ¬ Covers s.ranges addr := by
  rintro ⟨r, member, own⟩
  have gap := shut.2 r member
  simp only [Range.Holds, Range.Gapped] at holds own gap
  omega

/-- A range for which there is no room once it was taken away has not been there before. -/
theorem Shut.of_subtract (removal : s.subtract removed = .ok (.ok (), next)) (sized : s.Sized)
    (shut : next.Shut removed) : next = s := by
  rcases subtract_cases removal with ⟨_, _, same⟩ | ⟨_, cutting⟩
  · exact same
  · obtain ⟨full, gapped⟩ := shut
    obtain ⟨short, same⟩ := cut_gapped cutting gapped
    have most : s.ranges.length ≤ capacity := sized
    have length : next.ranges.length = capacity := full
    exact congrArg RegionSet.mk (same (by omega))

theorem shut_subtract_iff (removal : s.subtract removed = .ok (.ok (), next)) (normal : Normal s.ranges)
    (sized : s.Sized) : next.Shut removed ↔ s.Shut removed := by
  constructor
  · intro shut
    rwa [Shut.of_subtract removal sized shut] at shut
  · intro shut
    rwa [subtract_uncovered removal normal fun _ => shut.uncovered]

end ZonedMemory.RegionSet
