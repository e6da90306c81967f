import Mathlib.Data.List.MinMax
import ZonedMemory.Proofs.Search
import ZonedMemory.Proofs.Zone
import ZonedMemory.ZoneTable.Basic

namespace ZonedMemory.ZoneTable

/-!
The zones of a table stand in address order and share out the live blocks. What a look-up remembers
is tried against the zone itself, so it never changes which zone is found by address.
-/

/-- The zones serve the live blocks: each block starts in one of them. -/
structure Serving (zones : List Zone) (live : List Block) : Prop where
  indexed : ∀ (index : Nat) (z : Zone), zones[index]? = some z → z.index = index
  sorted : zones.Pairwise fun z other => z.range.base + z.range.size ≤ other.range.base
  sound : ∀ z ∈ zones, z.Sound live
  owned : ∀ x ∈ live, ∃ z ∈ zones, z.Owns x
  apart : live.Pairwise Block.Apart

variable {t : ZoneTable} {zones : List Zone} {live left : List Block} {z other after : Zone}
  {x : Block} {addr : Nat}

theorem mem_of_remembered {slot : Option Nat} (recalled : t.remembered slot = some z) : z ∈ t.zones := by
  obtain ⟨index, _, found⟩ := Option.bind_eq_some_iff.mp recalled
  exact List.mem_of_getElem? found

namespace Serving

theorem index_get (serving : Serving zones live) (member : z ∈ zones) : zones[z.index]? = some z := by
  obtain ⟨index, found⟩ := List.mem_iff_getElem?.mp member
  rw [serving.indexed index z found]
  exact found

theorem separate (serving : Serving zones live) (member : z ∈ zones) (otherMember : other ∈ zones)
    (different : z ≠ other) : z.range.base + z.range.size ≤ other.range.base ∨
      other.range.base + other.range.size ≤ z.range.base := by
  obtain ⟨i, bound, found⟩ := List.mem_iff_getElem.mp member
  obtain ⟨j, otherBound, otherFound⟩ := List.mem_iff_getElem.mp otherMember
  have order := List.pairwise_iff_getElem.mp serving.sorted
  rcases Nat.lt_trichotomy i j with less | same | greater
  · have := order i j bound otherBound less
    rw [found, otherFound] at this
    exact .inl this
  · subst same
    exact absurd (found.symm.trans otherFound) different
  · have := order j i otherBound bound greater
    rw [found, otherFound] at this
    exact .inr this

theorem covers_unique (serving : Serving zones live) (member : z ∈ zones) (otherMember : other ∈ zones)
    (covers : z.Covers addr) (otherCovers : other.Covers addr) : z = other := by
  by_contra different
  obtain ⟨lower, upper⟩ := covers
  obtain ⟨otherLower, otherUpper⟩ := otherCovers
  rcases serving.separate member otherMember different with before | before <;> omega

theorem contains_eq (serving : Serving zones live) (member : z ∈ zones) :
    z.contains addr = .ok (decide (z.Covers addr)) :=
  Range.contains_eq (serving.sound z member).word

theorem search_eq (serving : Serving t.zones live) (addr : Nat) :
    ∃ found next, t.search addr = .ok (found, next) ∧ next.zones = t.zones ∧
      ∀ z, found = some z ↔ z ∈ t.zones ∧ z.Covers addr := by
  obtain ⟨index, turning, first⟩ := Search.partitionPoint_holds Zone.range addr
    (fun z member => (serving.sound z member).word) serving.sorted
  simp only [search, turning, ok_bind]
  cases answer : t.zones[index]? with
  | none =>
      refine ⟨none, t, rfl, rfl, fun z => iff_of_false (by simp) fun found => ?_⟩
      cases answer.symm.trans (first z found.1 found.2)
  | some z =>
      have member := List.mem_of_getElem? answer
      simp only [serving.contains_eq member, ok_bind, decide_eq_true_eq]
      by_cases covers : z.Covers addr
      · rw [if_pos covers]
        refine ⟨some z, _, rfl, rfl, fun other => ⟨?_, fun found => ?_⟩⟩
        · rintro ⟨⟩
          exact ⟨member, covers⟩
        · rw [serving.covers_unique member found.1 covers found.2]
      · rw [if_neg covers]
        refine ⟨none, t, rfl, rfl, fun other => iff_of_false (by simp) fun found => ?_⟩
        obtain rfl := Option.some.inj (answer.symm.trans (first other found.1 found.2))
        exact covers found.2

/-- Whatever the table remembers, an address is found in the zone that covers it. -/
theorem find_eq (serving : Serving t.zones live) (addr : Nat) :
    ∃ found next, t.find addr = .ok (found, next) ∧ next.zones = t.zones ∧
      ∀ z, found = some z ↔ z ∈ t.zones ∧ z.Covers addr := by
  unfold find
  cases recalled : t.remembered t.found with
  | none => exact serving.search_eq addr
  | some z =>
      have member := mem_of_remembered recalled
      simp only [serving.contains_eq member, ok_bind, decide_eq_true_eq]
      by_cases covers : z.Covers addr
      · rw [if_pos covers]
        refine ⟨some z, t, rfl, rfl, fun other => ⟨?_, fun found => ?_⟩⟩
        · rintro ⟨⟩
          exact ⟨member, covers⟩
        · rw [serving.covers_unique member found.1 covers found.2]
      · rw [if_neg covers]
        exact serving.search_eq addr

theorem mem_set_iff (serving : Serving zones live) (member : z ∈ zones) :
    other ∈ zones.set z.index after ↔ other = after ∨ other ∈ zones ∧ other.index ≠ z.index := by
  have found := serving.index_get member
  have bound := (List.getElem?_eq_some_iff.mp found).1
  simp only [List.mem_iff_getElem?, List.getElem?_set]
  constructor
  · rintro ⟨index, here⟩
    by_cases same : z.index = index
    · rw [if_pos same, if_pos bound] at here
      exact .inl (Option.some.inj here).symm
    · rw [if_neg same] at here
      exact .inr ⟨⟨index, here⟩, fun equal => same (equal.symm.trans (serving.indexed _ _ here))⟩
  · rintro (rfl | ⟨⟨index, here⟩, different⟩)
    · exact ⟨z.index, by rw [if_pos rfl, if_pos bound]⟩
    · refine ⟨index, ?_⟩
      rw [if_neg fun same => different ((serving.indexed _ _ here).trans same.symm), here]

theorem fixed_set (serving : Serving zones live) (member : z ∈ zones) (same : after.fixed = z.fixed) :
    (zones.set z.index after).map Zone.fixed = zones.map Zone.fixed := by
  have found := serving.index_get member
  rw [List.map_set, same]
  refine List.ext_getElem? fun index => ?_
  rw [List.getElem?_set]
  split
  · rename_i here
    subst here
    have bound := (List.getElem?_eq_some_iff.mp found).1
    rw [List.getElem?_map, found, List.length_map, if_pos bound, Option.map_some]
  · rfl

/-- Changing one zone, when the other zones keep their blocks. -/
theorem set (serving : Serving zones live) (member : z ∈ zones) (same : after.fixed = z.fixed)
    (sound : after.Sound left)
    (others : ∀ other ∈ zones, other.index ≠ z.index →
      (left.filter fun x => other.Owns x) = live.filter fun x => other.Owns x)
    (owned : ∀ x ∈ left, ∃ z ∈ zones, z.Owns x) (apart : left.Pairwise Block.Apart) :
    Serving (zones.set z.index after) left := by
  have fixed := serving.fixed_set member same
  refine ⟨?_, ?_, ?_, ?_, apart⟩
  · intro index other found
    have equal := congrArg (·[index]?) fixed
    simp only [List.getElem?_map, found, Option.map_some] at equal
    obtain ⟨before, here, sameFixed⟩ := Option.map_eq_some_iff.mp equal.symm
    exact (Zone.index_eq sameFixed).symm.trans (serving.indexed index before here)
  · have ranges : ∀ list : List Zone, (list.Pairwise fun z other =>
        z.range.base + z.range.size ≤ other.range.base) ↔ (list.map Zone.fixed).Pairwise
          fun z other => z.2.1.base + z.2.1.size ≤ other.2.1.base := by
      intro list
      rw [List.pairwise_map]
      rfl
    rw [ranges, fixed, ← ranges]
    exact serving.sorted
  · intro other found
    rcases (serving.mem_set_iff member).mp found with rfl | ⟨kept, different⟩
    · exact sound
    · exact (serving.sound other kept).congr (others other kept different)
  · intro x inLeft
    obtain ⟨owner, ownerMember, owns⟩ := owned x inLeft
    by_cases here : owner.index = z.index
    · have equal : owner = z := by
        have found := serving.index_get ownerMember
        rw [here, serving.index_get member] at found
        exact (Option.some.inj found).symm
      exact ⟨after, (serving.mem_set_iff member).mpr (.inl rfl), (Zone.owns_iff same).mpr (equal ▸ owns)⟩
    · exact ⟨owner, (serving.mem_set_iff member).mpr (.inr ⟨ownerMember, here⟩), owns⟩

theorem perm (serving : Serving zones live) (same : live.Perm left) : Serving zones left where
  indexed := serving.indexed
  sorted := serving.sorted
  sound z member := (serving.sound z member).perm same
  owned x inLeft := serving.owned x (same.mem_iff.mpr inLeft)
  apart := serving.apart.perm same Block.Apart.symm

end Serving

theorem roomiest_eq_argmax (zones : List Zone) : roomiest zones = zones.argmax Zone.freePages := by
  unfold roomiest List.argmax
  congr 1
  funext best zone
  cases best <;> rfl

theorem roomiest_mem (answer : roomiest zones = some z) : z ∈ zones := by
  rw [roomiest_eq_argmax] at answer
  exact List.argmax_mem answer

/-- A zone that is remembered and qualifies is taken, and else the roomiest that qualifies. -/
theorem choose_eq (t : ZoneTable) (bytes : Nat) {flags : ZoneFlags} (some : flags.lowestBit < 8) :
    (t.choose bytes flags).1 =
      ((t.remembered t.chosen[flags.lowestBit]).filter
          (Zone.qualifies · flags (max (Word.divUp bytes pageSize) 1))).or
        (roomiest (t.zones.filter (Zone.qualifies · flags (max (Word.divUp bytes pageSize) 1)))) := by
  rw [choose, dif_pos some]
  simp only
  split
  · rename_i zone held
    rw [held, Option.some_or]
  · rename_i missing
    rw [missing, Option.none_or]
    split
    · rename_i answer
      exact answer.symm
    · rename_i answer
      exact answer.symm

theorem choose_zones (t : ZoneTable) (bytes : Nat) (flags : ZoneFlags) :
    (t.choose bytes flags).2.zones = t.zones := by
  unfold choose
  split
  · simp only
    split
    · rfl
    · split <;> rfl
  · rfl

theorem choose_mem (t : ZoneTable) (bytes : Nat) (flags : ZoneFlags) :
    (t.choose bytes flags).2.zones = t.zones ∧
      ∀ z, (t.choose bytes flags).1 = some z → z ∈ t.zones ∧ z.flags.intersects flags = true := by
  refine ⟨choose_zones t bytes flags, fun z chosen => ?_⟩
  by_cases some : flags.lowestBit < 8
  · rw [choose_eq t bytes some, Option.or_eq_some_iff] at chosen
    rcases chosen with chosen | ⟨_, chosen⟩
    · obtain ⟨recalled, qualifies⟩ := Option.filter_eq_some_iff.mp chosen
      exact ⟨mem_of_remembered recalled, (Bool.and_eq_true _ _ ▸ qualifies).1⟩
    · obtain ⟨member, qualifies⟩ := List.mem_filter.mp (roomiest_mem chosen)
      exact ⟨member, (Bool.and_eq_true _ _ ▸ qualifies).1⟩
  · rw [choose, dif_neg some] at chosen
    cases chosen

end ZonedMemory.ZoneTable
