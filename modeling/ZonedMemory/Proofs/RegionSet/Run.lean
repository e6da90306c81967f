import ZonedMemory.Proofs.Range.Count
import ZonedMemory.Proofs.RegionSet.Room
import ZonedMemory.Proofs.Search

namespace ZonedMemory.RegionSet

/-!
Runs of a set. Whatever is added and taken away, and whatever of it is refused, the set stays in normal
form, and all that it answers is about the addresses that it covers.
-/

inductive Change where
  | add (range : Range)
  | subtract (range : Range)

def Change.range : Change → Range
  | .add range => range
  | .subtract range => range

def change (s : RegionSet) : Change → Except Fault (Except RegionsFull Unit × RegionSet)
  | .add range => s.add range
  | .subtract range => s.subtract range

/-- A refused change is no reason to stop. -/
def perform (s : RegionSet) (c : Change) : Except Fault RegionSet := do
  let (_, next) ← s.change c
  return next

def run (s : RegionSet) (changes : List Change) : Except Fault RegionSet := changes.foldlM perform s

/-- A change for which there is no room: the set is full and meets nothing of the range to add, or would
have to keep both ends of a range around the one to take away. -/
def Denies (s : RegionSet) : Change → Prop
  | .add range => 0 < range.size ∧ s.Shut range
  | .subtract range => 0 < range.size ∧ s.Unsplittable range

/-- A change for which there is no room once others are made. -/
def DeniesAfter (s : RegionSet) (changes : List Change) (c : Change) : Prop :=
  ∃ left, s.run changes = .ok left ∧ left.Denies c

/-- What holds of a set between two changes. -/
structure WellFormed (s : RegionSet) : Prop where
  normal : Normal s.ranges
  bounded : Bounded s.ranges
  sized : s.Sized

/-- What adding a range comes to, by the addresses covered before and after. -/
structure Adds (s : RegionSet) (added : Range) (answer : Except RegionsFull Unit) (next : RegionSet) :
    Prop where
  union : answer = .ok () → ∀ addr, Covers next.ranges addr ↔ Covers s.ranges addr ∨ added.Holds addr
  refused_iff : answer = .error .full ↔ 0 < added.size ∧ s.Shut added
  unchanged : answer = .error .full → next = s

/-- What taking away a range comes to. A refused range is gone as well, but not alone. -/
structure Subtracts (s : RegionSet) (removed : Range) (answer : Except RegionsFull Unit)
    (next : RegionSet) : Prop where
  difference : answer = .ok () →
    ∀ addr, Covers next.ranges addr ↔ Covers s.ranges addr ∧ ¬ removed.Holds addr
  refused_iff : answer = .error .full ↔ 0 < removed.size ∧ s.Unsplittable removed
  within : ∀ addr, Covers next.ranges addr → Covers s.ranges addr ∧ ¬ removed.Holds addr

/-- A set in normal form all of whose answers are right. -/
structure Faithful (s : RegionSet) : Prop where
  nonempty : ∀ r ∈ s.ranges, 0 < r.size
  spaced : s.ranges.Pairwise fun r other => r.base + r.size < other.base
  sized : s.size ≤ capacity
  adds : ∀ added : Range, added.base + added.size < 2 ^ 64 →
    ∃ answer next, s.add added = .ok (answer, next) ∧ s.Adds added answer next
  subtracts : ∀ removed : Range, removed.base + removed.size < 2 ^ 64 →
    ∃ answer next, s.subtract removed = .ok (answer, next) ∧ s.Subtracts removed answer next
  total : s.totalSize = .ok {addr | Covers s.ranges addr}.ncard
  finds : ∀ addr, ∃ found, s.find? addr = .ok found ∧
    ∀ r, found = some r ↔ r ∈ s.ranges ∧ r.Holds addr

variable {s left next : RegionSet} {added removed : Range} {answer : Except RegionsFull Unit} {c : Change}
  {changes front back : List Change}

theorem run_singleton (computed : s.change c = .ok (answer, next)) : s.run [c] = .ok next := by
  rw [run, List.foldlM_cons, perform, computed]
  rfl

theorem run_append (first : s.run front = .ok left) : s.run (front ++ back) = left.run back := by
  rw [run, List.foldlM_append]
  change s.run front >>= (fun next => next.run back) = left.run back
  rw [first, ok_bind]

theorem deniesAfter_nil : s.DeniesAfter [] c ↔ s.Denies c := by
  simp [DeniesAfter, run]

theorem deniesAfter_append (first : s.run front = .ok left) :
    s.DeniesAfter (front ++ back) c ↔ left.DeniesAfter back c := by
  simp only [DeniesAfter, run_append first]

theorem refused_iff : answer = .error .full ↔ answer ≠ .ok () := by
  cases answer with
  | error refusal => simp
  | ok done => simp

namespace WellFormed

theorem empty : WellFormed .empty where
  normal := .nil
  bounded := List.forall_mem_nil _
  sized := Nat.zero_le _

theorem add_exists (formed : s.WellFormed) (word : added.base + added.size < 2 ^ 64) :
    ∃ answer next, s.add added = .ok (answer, next) ∧ next.WellFormed := by
  obtain ⟨answer, next, computed, bounded, _⟩ := add_eq formed.bounded word
  exact ⟨answer, next, computed, add_normal computed formed.normal, bounded,
    sized_kept.add formed.sized computed⟩

theorem subtract_exists (formed : s.WellFormed) (word : removed.base + removed.size < 2 ^ 64) :
    ∃ answer next, s.subtract removed = .ok (answer, next) ∧ next.WellFormed := by
  obtain ⟨answer, next, computed, leaves⟩ := subtract_eq formed.bounded formed.normal word
  exact ⟨answer, next, computed, subtract_normal computed formed.normal, leaves.bounded,
    sized_kept.subtract formed.sized computed⟩

theorem change_exists (formed : s.WellFormed) (word : c.range.base + c.range.size < 2 ^ 64) :
    ∃ answer next, s.change c = .ok (answer, next) ∧ next.WellFormed := by
  cases c with
  | add range => exact formed.add_exists word
  | subtract range => exact formed.subtract_exists word

theorem run_exists (formed : s.WellFormed)
    (words : ∀ c ∈ changes, c.range.base + c.range.size < 2 ^ 64) :
    ∃ next, s.run changes = .ok next ∧ next.WellFormed := by
  induction changes generalizing s with
  | nil => exact ⟨s, rfl, formed⟩
  | cons first rest ih =>
      obtain ⟨firstWord, restWords⟩ := List.forall_mem_cons.mp words
      obtain ⟨answer, left, changed, leftFormed⟩ := formed.change_exists firstWord
      obtain ⟨next, later, nextFormed⟩ := ih leftFormed restWords
      refine ⟨next, ?_, nextFormed⟩
      rw [run, List.foldlM_cons, perform, changed]
      exact later

theorem adds (formed : s.WellFormed) (computed : s.add added = .ok (answer, next)) :
    s.Adds added answer next where
  union accepted addr := by
    subst accepted
    exact (add_covers computed).trans or_comm
  refused_iff := by
    rw [refused_iff]
    by_cases some : 0 < added.size
    · rw [add_refused_iff computed formed.normal formed.sized some, and_iff_right some]
    · rcases add_cases computed with ⟨_, accepted, _⟩ | ⟨large, _⟩
      · simp only [accepted, some, ne_eq, not_true_eq_false, false_and]
      · exact absurd large some
  unchanged refused := add_refused computed (refused_iff.mp refused)

theorem subtracts (formed : s.WellFormed) (computed : s.subtract removed = .ok (answer, next)) :
    s.Subtracts removed answer next where
  difference accepted addr := by
    subst accepted
    exact subtract_covers computed formed.normal
  refused_iff := by
    rw [refused_iff]
    by_cases some : 0 < removed.size
    · rw [subtract_refused_iff computed formed.normal formed.sized some, and_iff_right some]
    · rcases subtract_cases computed with ⟨_, accepted, _⟩ | ⟨large, _⟩
      · simp only [accepted, some, ne_eq, not_true_eq_false, false_and]
      · exact absurd large some
  within addr := subtract_inside computed formed.normal

theorem denies_iff (formed : s.WellFormed) (computed : s.change c = .ok (answer, next)) :
    s.Denies c ↔ answer ≠ .ok () := by
  rw [← RegionSet.refused_iff]
  cases c with
  | add range => exact (formed.adds computed).refused_iff.symm
  | subtract range => exact (formed.subtracts computed).refused_iff.symm

theorem sorted (formed : s.WellFormed) :
    s.ranges.Pairwise fun r other => r.base + r.size ≤ other.base :=
  formed.normal.spaced.imp Nat.le_of_lt

theorem finds (formed : s.WellFormed) (addr : Nat) :
    ∃ found, s.find? addr = .ok found ∧ ∀ r, found = some r ↔ r ∈ s.ranges ∧ r.Holds addr := by
  obtain ⟨index, turning, first⟩ := Search.partitionPoint_holds id addr formed.bounded formed.sorted
  change Search.partitionPoint (fun r : Range => do return decide ((← r.stop) ≤ addr)) s.ranges = _ at turning
  simp only [find?, turning, ok_bind]
  cases listed : s.ranges[index]? with
  | none =>
      refine ⟨none, rfl, fun r => ⟨nofun, fun holding => ?_⟩⟩
      cases listed.symm.trans (first r holding.1 holding.2)
  | some host =>
      have member : host ∈ s.ranges := List.mem_of_getElem? listed
      have only (r : Range) (holding : r ∈ s.ranges ∧ r.Holds addr) : host = r :=
        Option.some.inj (listed.symm.trans (first r holding.1 holding.2))
      simp only [Range.contains_eq (formed.bounded host member), ok_bind, decide_eq_true_eq]
      by_cases holds : host.Holds addr
      · refine ⟨some host, congrArg Except.ok (if_pos holds), fun r => ⟨fun same => ?_, fun holding => ?_⟩⟩
        · obtain rfl := Option.some.inj same
          exact ⟨member, holds⟩
        · rw [only r holding]
      · refine ⟨none, congrArg Except.ok (if_neg holds), fun r => ⟨nofun, fun holding => ?_⟩⟩
        exact absurd (only r holding ▸ holding.2) holds

theorem faithful (formed : s.WellFormed) : s.Faithful where
  nonempty := formed.normal.nonempty
  spaced := formed.normal.spaced
  sized := formed.sized
  adds added word := by
    obtain ⟨answer, next, computed, _⟩ := formed.add_exists word
    exact ⟨answer, next, computed, formed.adds computed⟩
  subtracts removed word := by
    obtain ⟨answer, next, computed, _⟩ := formed.subtract_exists word
    exact ⟨answer, next, computed, formed.subtracts computed⟩
  total := (totalSize_eq formed.normal formed.bounded).trans
    (congrArg Except.ok (Range.ncard_total formed.sorted).symm)
  finds := formed.finds

end WellFormed

/-- Any sequence of changes by ranges that end inside the address space leaves a set in normal form. The
next change, the total and the search answer by the addresses that the set covers then. -/
theorem run_faithful (changes : List Change)
    (words : ∀ c ∈ changes, c.range.base + c.range.size < 2 ^ 64) :
    ∃ s, RegionSet.empty.run changes = .ok s ∧ s.Faithful := by
  obtain ⟨s, computed, formed⟩ := WellFormed.empty.run_exists words
  exact ⟨s, computed, formed.faithful⟩

/-- Two ranges with a gap that a third one closes, and a hole in what comes of them. -/
def bridging : List Change := [.add ⟨0, 10⟩, .add ⟨20, 10⟩, .add ⟨10, 10⟩, .subtract ⟨5, 1⟩]

theorem run_faithful_bridging :
    (∀ c ∈ bridging, c.range.base + c.range.size < 2 ^ 64) ∧
      RegionSet.empty.run bridging = .ok ⟨[⟨0, 5⟩, ⟨6, 24⟩]⟩ ∧ Faithful ⟨[⟨0, 5⟩, ⟨6, 24⟩]⟩ := by
  have words : ∀ c ∈ bridging, c.range.base + c.range.size < 2 ^ 64 := by decide
  have computed : RegionSet.empty.run bridging = .ok ⟨[⟨0, 5⟩, ⟨6, 24⟩]⟩ := rfl
  obtain ⟨s, same, faithful⟩ := run_faithful bridging words
  obtain rfl := Except.ok.inj (computed.symm.trans same)
  exact ⟨words, computed, faithful⟩

end ZonedMemory.RegionSet
