import ZonedMemory.Proofs.Range
import ZonedMemory.RegionSet

namespace ZonedMemory.RegionSet

/-!
The normal form of a set of addresses: its ranges are not empty and stand in address order with gaps
between them. Adding and taking away ranges keeps it.
-/

structure Normal (ranges : List Range) : Prop where
  nonempty : ∀ r ∈ ranges, 0 < r.size
  spaced : ranges.Pairwise fun r other => r.base + r.size < other.base

variable {ranges rest result : List Range} {first added removed : Range} {s next : RegionSet}
  {count : Nat} {answer : Except RegionsFull Unit}

theorem Normal.nil : Normal [] := ⟨by simp, .nil⟩

theorem normal_cons :
    Normal (first :: rest) ↔
      0 < first.size ∧ (∀ r ∈ rest, first.base + first.size < r.base) ∧ Normal rest := by
  constructor
  · intro normal
    obtain ⟨after, spaced⟩ := List.pairwise_cons.mp normal.spaced
    exact ⟨normal.nonempty first (by simp), after,
      fun r member => normal.nonempty r (by simp [member]), spaced⟩
  · intro parts
    obtain ⟨some, after, normal⟩ := parts
    exact ⟨by simpa using ⟨some, normal.nonempty⟩, List.pairwise_cons.mpr ⟨after, normal.spaced⟩⟩

/-- How a range is put into its place, from the first one of those that are there. -/
inductive AbsorbStep (added first : Range) (rest : List Range) : List Range → Prop where
  | pass {left : List Range} (gap : first.base + first.size < added.base)
      (later : absorb added rest = .ok left) : AbsorbStep added first rest (first :: left)
  | place (gap : added.base + added.size < first.base) :
      AbsorbStep added first rest (added :: first :: rest)
  | join {joined : Range} {left : List Range} (meets : added.base ≤ first.base + first.size)
      (back : first.base ≤ added.base + added.size) (merged : added.merge first = .ok joined)
      (later : absorb joined rest = .ok left) : AbsorbStep added first rest left

theorem absorb_cons_step (absorbed : absorb added (first :: rest) = .ok result) :
    AbsorbStep added first rest result := by
  obtain ⟨stop, sum, absorbed⟩ := bind_eq_ok.mp absorbed
  obtain ⟨_, rfl⟩ := Word.add_eq_ok.mp sum
  split at absorbed
  · rename_i gap
    obtain ⟨left, later, absorbed⟩ := bind_eq_ok.mp absorbed
    obtain rfl := Except.ok.inj absorbed
    exact .pass gap later
  · rename_i meets
    obtain ⟨addedStop, sum, absorbed⟩ := bind_eq_ok.mp absorbed
    obtain ⟨_, rfl⟩ := Word.add_eq_ok.mp sum
    split at absorbed
    · rename_i gap
      obtain rfl := Except.ok.inj absorbed
      exact .place gap
    · rename_i back
      obtain ⟨joined, merged, later⟩ := bind_eq_ok.mp absorbed
      exact .join (Nat.le_of_not_lt meets) (Nat.le_of_not_lt back) merged later

/-- Absorbing a range keeps the normal form; nothing moves below what was lowest before. -/
theorem absorb_normal (absorbed : absorb added ranges = .ok result) (some : 0 < added.size)
    (normal : Normal ranges) :
    Normal result ∧ ∀ bound < added.base, (∀ r ∈ ranges, bound < r.base) →
      ∀ r ∈ result, bound < r.base := by
  induction ranges generalizing added result with
  | nil =>
      obtain rfl := Except.ok.inj absorbed
      exact ⟨normal_cons.mpr ⟨some, by simp, .nil⟩, by simp⟩
  | cons first rest ih =>
      obtain ⟨firstSome, after, restNormal⟩ := normal_cons.mp normal
      cases absorb_cons_step absorbed with
      | @pass left gap later =>
          obtain ⟨leftNormal, lower⟩ := ih later some restNormal
          refine ⟨normal_cons.mpr ⟨firstSome, lower _ gap after, leftNormal⟩, ?_⟩
          intro bound below all r member
          rcases List.mem_cons.mp member with rfl | member
          · exact all r (by simp)
          · exact lower bound below (fun r member => all r (by simp [member])) r member
      | place gap =>
          refine ⟨normal_cons.mpr ⟨some, fun r member => ?_, normal⟩, fun bound below all r member => ?_⟩
          · rcases List.mem_cons.mp member with rfl | member
            · exact gap
            · have := after r member
              omega
          · rcases List.mem_cons.mp member with rfl | member
            · exact below
            · exact all r member
      | join meets back merged later =>
          obtain ⟨base, stop⟩ := Range.merge_eq_ok merged
          obtain ⟨resultNormal, lower⟩ := ih later (by omega) restNormal
          refine ⟨resultNormal, fun bound below all => lower bound ?_ ?_⟩
          · have := all first (by simp)
            omega
          · exact fun r member => all r (by simp [member])

/-- A range that is added goes into its place, unless it is empty or one range too many. -/
theorem add_cases (computed : s.add added = .ok (answer, next)) :
    added.size = 0 ∧ answer = .ok () ∧ next = s ∨
      0 < added.size ∧ ∃ ranges, absorb added s.ranges = .ok ranges ∧
        (capacity < ranges.length ∧ answer = .error .full ∧ next = s ∨
          ranges.length ≤ capacity ∧ answer = .ok () ∧ next = ⟨ranges⟩) := by
  unfold add at computed
  split at computed
  · rename_i empty
    obtain ⟨rfl, rfl⟩ := Prod.mk.inj (Except.ok.inj computed)
    exact .inl ⟨beq_iff_eq.mp empty, rfl, rfl⟩
  · rename_i notEmpty
    have some : 0 < added.size := Nat.pos_of_ne_zero fun none => notEmpty (beq_iff_eq.mpr none)
    obtain ⟨ranges, absorbed, computed⟩ := bind_eq_ok.mp computed
    refine .inr ⟨some, ranges, absorbed, ?_⟩
    split at computed
    · rename_i full
      obtain ⟨rfl, rfl⟩ := Prod.mk.inj (Except.ok.inj computed)
      exact .inl ⟨full, rfl, rfl⟩
    · rename_i room
      obtain ⟨rfl, rfl⟩ := Prod.mk.inj (Except.ok.inj computed)
      exact .inr ⟨Nat.le_of_not_lt room, rfl, rfl⟩

theorem add_normal (computed : s.add added = .ok (answer, next)) (normal : Normal s.ranges) :
    Normal next.ranges := by
  rcases add_cases computed with ⟨_, _, rfl⟩ | ⟨some, ranges, absorbed, ⟨_, _, rfl⟩ | ⟨_, _, rfl⟩⟩
  · exact normal
  · exact normal
  · exact (absorb_normal absorbed some normal).1

/-- The part of a range that sticks out below another one, if there is one. -/
def below (first removed : Range) : List Range :=
  if first.base < removed.base then [⟨first.base, removed.base - first.base⟩] else []

/-- The part of a range that sticks out above another one. -/
def above (first removed : Range) : Range :=
  ⟨removed.base + removed.size, first.base + first.size - (removed.base + removed.size)⟩

theorem cut_cons (firstWord : first.base + first.size < 2 ^ 64)
    (word : removed.base + removed.size < 2 ^ 64) :
    cut removed count (first :: rest) =
      if first.base < removed.base + removed.size ∧ removed.base < first.base + first.size then
        if removed.base + removed.size < first.base + first.size then
          if capacity ≤ count - 1 + (below first removed).length then
            .ok (.error .full, below first removed ++ rest)
          else do
            let (result, left) ← cut removed (count + (below first removed).length) rest
            return (result, below first removed ++ above first removed :: left)
        else do
          let (result, left) ← cut removed (count - 1 + (below first removed).length) rest
          return (result, below first removed ++ left)
      else do
        let (result, left) ← cut removed count rest
        return (result, first :: left) := by
  simp only [cut, Range.overlaps_eq firstWord word, Range.stop_eq firstWord, Range.stop_eq word, ok_bind,
    pure_eq_ok, decide_eq_true_eq]
  by_cases meets : first.base < removed.base + removed.size ∧ removed.base < first.base + first.size
  · rw [if_pos meets, if_pos meets]
    have part (lower : first.base < removed.base) := Range.ofBounds_eq_ok.mpr ⟨Nat.le_of_lt lower, rfl⟩
    have rest (longer : removed.base + removed.size < first.base + first.size) :=
      Range.ofBounds_eq_ok.mpr ⟨Nat.le_of_lt longer, rfl⟩
    by_cases lower : first.base < removed.base <;>
      by_cases longer : removed.base + removed.size < first.base + first.size
    · simp only [if_pos lower, if_pos longer, part lower, rest longer, ok_bind, below, above]
    · simp only [if_pos lower, if_neg longer, part lower, ok_bind, below]
    · simp only [if_neg lower, if_pos longer, rest longer, ok_bind, below, above]
    · simp only [if_neg lower, if_neg longer, below]
  · rw [if_neg meets, if_neg meets]

/-- How a cut goes on from the range that it has come to, `count` ranges in the whole set so far. -/
inductive CutStep (removed : Range) (count : Nat) (first : Range) (rest : List Range) :
    Except RegionsFull Unit → List Range → Prop where
  | skip {answer : Except RegionsFull Unit} {left : List Range}
      (misses : ¬ (first.base < removed.base + removed.size ∧ removed.base < first.base + first.size))
      (later : cut removed count rest = .ok (answer, left)) :
      CutStep removed count first rest answer (first :: left)
  | trim {answer : Except RegionsFull Unit} {left : List Range}
      (meets : first.base < removed.base + removed.size ∧ removed.base < first.base + first.size)
      (ended : first.base + first.size ≤ removed.base + removed.size)
      (later : cut removed (count - 1 + (below first removed).length) rest = .ok (answer, left)) :
      CutStep removed count first rest answer (below first removed ++ left)
  | lost (meets : first.base < removed.base + removed.size ∧ removed.base < first.base + first.size)
      (longer : removed.base + removed.size < first.base + first.size)
      (full : capacity ≤ count - 1 + (below first removed).length) :
      CutStep removed count first rest (.error .full) (below first removed ++ rest)
  | split {answer : Except RegionsFull Unit} {left : List Range}
      (meets : first.base < removed.base + removed.size ∧ removed.base < first.base + first.size)
      (longer : removed.base + removed.size < first.base + first.size)
      (room : count - 1 + (below first removed).length < capacity)
      (later : cut removed (count + (below first removed).length) rest = .ok (answer, left)) :
      CutStep removed count first rest answer (below first removed ++ above first removed :: left)

theorem cut_cons_step (computed : cut removed count (first :: rest) = .ok (answer, result)) :
    CutStep removed count first rest answer result := by
  obtain ⟨meets, tested, continued⟩ := bind_eq_ok.mp computed
  obtain ⟨removedStop, sum, tested⟩ := bind_eq_ok.mp tested
  obtain ⟨word, rfl⟩ := Word.add_eq_ok.mp sum
  by_cases lower : first.base < removed.base + removed.size
  · rw [if_pos lower] at tested
    obtain ⟨firstStop, sum, _⟩ := bind_eq_ok.mp tested
    obtain ⟨firstWord, _⟩ := Word.add_eq_ok.mp sum
    rw [cut_cons firstWord word] at computed
    split at computed
    · rename_i overlap
      split at computed
      · rename_i longer
        split at computed
        · rename_i full
          obtain ⟨rfl, rfl⟩ := Prod.mk.inj (Except.ok.inj computed)
          exact .lost overlap longer full
        · rename_i room
          obtain ⟨⟨_, left⟩, later, computed⟩ := bind_eq_ok.mp computed
          obtain ⟨rfl, rfl⟩ := Prod.mk.inj (Except.ok.inj computed)
          exact .split overlap longer (Nat.lt_of_not_le room) later
      · rename_i ended
        obtain ⟨⟨_, left⟩, later, computed⟩ := bind_eq_ok.mp computed
        obtain ⟨rfl, rfl⟩ := Prod.mk.inj (Except.ok.inj computed)
        exact .trim overlap (Nat.le_of_not_lt ended) later
    · rename_i apart
      obtain ⟨⟨_, left⟩, later, computed⟩ := bind_eq_ok.mp computed
      obtain ⟨rfl, rfl⟩ := Prod.mk.inj (Except.ok.inj computed)
      exact .skip apart later
  -- a range above the cut is passed by without a look at its end, which need not be a word
  · rw [if_neg lower] at tested
    obtain rfl := Except.ok.inj tested
    obtain ⟨⟨_, left⟩, later, continued⟩ := bind_eq_ok.mp continued
    obtain ⟨rfl, rfl⟩ := Prod.mk.inj (Except.ok.inj continued)
    exact .skip (fun meets => lower meets.1) later

/-- What is left of a cut range below the cut goes before ranges above the start of the cut. -/
theorem normal_below {tail : List Range} (normal : Normal tail)
    (past : ∀ r ∈ tail, removed.base < r.base) :
    Normal (below first removed ++ tail) ∧ ∀ bound < first.base, (∀ r ∈ tail, bound < r.base) →
      ∀ r ∈ below first removed ++ tail, bound < r.base := by
  unfold below
  split
  · rename_i lower
    constructor
    · refine normal_cons.mpr ⟨Nat.sub_pos_of_lt lower, fun r member => ?_, normal⟩
      have := past r member
      simp only
      omega
    · intro bound less all r member
      rcases List.mem_cons.mp member with rfl | member
      · exact less
      · exact all r member
  · exact ⟨normal, fun bound _ all => all⟩

/-- Cutting keeps the normal form, also where it ends early; no part starts below its range. -/
theorem cut_normal (computed : cut removed count ranges = .ok (answer, result))
    (some : 0 < removed.size) (normal : Normal ranges) :
    Normal result ∧ ∀ bound, (∀ r ∈ ranges, bound < r.base) → ∀ r ∈ result, bound < r.base := by
  induction ranges generalizing count answer result with
  | nil =>
      obtain ⟨_, rfl⟩ := Prod.mk.inj (Except.ok.inj computed)
      exact ⟨.nil, by simp⟩
  | cons first rest ih =>
      obtain ⟨firstSome, after, restNormal⟩ := normal_cons.mp normal
      have restAbove {bound : Nat} (all : ∀ r ∈ first :: rest, bound < r.base) :
          ∀ r ∈ rest, bound < r.base := fun r member => all r (by simp [member])
      have restPast (meets : removed.base < first.base + first.size) : ∀ r ∈ rest, removed.base < r.base :=
        fun r member => meets.trans (after r member)
      cases cut_cons_step computed with
      | @skip _ left misses later =>
          obtain ⟨leftNormal, leftLower⟩ := ih later restNormal
          refine ⟨normal_cons.mpr ⟨firstSome, leftLower _ after, leftNormal⟩, fun bound all r member => ?_⟩
          rcases List.mem_cons.mp member with rfl | member
          · exact all r (by simp)
          · exact leftLower bound (restAbove all) r member
      | @trim _ left meets ended later =>
          obtain ⟨leftNormal, leftLower⟩ := ih later restNormal
          obtain ⟨resultNormal, lower⟩ := normal_below leftNormal (leftLower _ (restPast meets.2))
          exact ⟨resultNormal, fun bound all => lower bound (all first (by simp))
            (leftLower bound (restAbove all))⟩
      | lost meets longer full =>
          obtain ⟨resultNormal, lower⟩ := normal_below restNormal (restPast meets.2)
          exact ⟨resultNormal, fun bound all => lower bound (all first (by simp)) (restAbove all)⟩
      | @split _ left meets longer room later =>
          obtain ⟨leftNormal, leftLower⟩ := ih later restNormal
          have tailNormal : Normal (above first removed :: left) := by
            refine normal_cons.mpr ⟨Nat.sub_pos_of_lt longer, fun r member => ?_, leftNormal⟩
            have := leftLower _ after r member
            simp only [above]
            omega
          have tailAbove : ∀ bound < removed.base + removed.size, (∀ r ∈ left, bound < r.base) →
              ∀ r ∈ above first removed :: left, bound < r.base := by
            intro bound less all r member
            rcases List.mem_cons.mp member with rfl | member
            · exact less
            · exact all r member
          obtain ⟨resultNormal, lower⟩ := normal_below tailNormal
            (tailAbove _ (Nat.lt_add_of_pos_right some) (leftLower _ (restPast meets.2)))
          refine ⟨resultNormal, fun bound all => lower bound (all first (by simp)) ?_⟩
          exact tailAbove bound ((all first (by simp)).trans meets.1) (leftLower bound (restAbove all))

theorem subtract_cases (computed : s.subtract removed = .ok (answer, next)) :
    removed.size = 0 ∧ answer = .ok () ∧ next = s ∨
      0 < removed.size ∧ cut removed s.size s.ranges = .ok (answer, next.ranges) := by
  unfold subtract at computed
  split at computed
  · rename_i empty
    obtain ⟨rfl, rfl⟩ := Prod.mk.inj (Except.ok.inj computed)
    exact .inl ⟨beq_iff_eq.mp empty, rfl, rfl⟩
  · rename_i notEmpty
    obtain ⟨⟨_, ranges⟩, cutting, computed⟩ := bind_eq_ok.mp computed
    obtain ⟨rfl, rfl⟩ := Prod.mk.inj (Except.ok.inj computed)
    exact .inr ⟨Nat.pos_of_ne_zero fun none => notEmpty (beq_iff_eq.mpr none), cutting⟩

theorem subtract_normal (computed : s.subtract removed = .ok (answer, next))
    (normal : Normal s.ranges) : Normal next.ranges := by
  rcases subtract_cases computed with ⟨_, _, rfl⟩ | ⟨some, cutting⟩
  · exact normal
  · exact (cut_normal cutting some normal).1

/-- What adding and taking away ranges leaves true of a set, whatever is refused. -/
structure Kept (P : RegionSet → Prop) : Prop where
  add : ∀ {s next : RegionSet} {added : Range} {answer : Except RegionsFull Unit},
    P s → s.add added = .ok (answer, next) → P next
  subtract : ∀ {s next : RegionSet} {removed : Range} {answer : Except RegionsFull Unit},
    P s → s.subtract removed = .ok (answer, next) → P next

theorem normal_kept : Kept fun s => Normal s.ranges where
  add normal computed := add_normal computed normal
  subtract normal computed := subtract_normal computed normal

end ZonedMemory.RegionSet
