import Mathlib.Algebra.Order.BigOperators.Group.Finset
import Mathlib.Data.Set.Card
import ZonedMemory.Proofs.Block

namespace ZonedMemory

/-!
Tilings of a range of frames by natural blocks. A tiling changes by exchanging some of its blocks
for others that hold the same frames. Once no two free blocks are buddies, the free blocks are the
largest runs that the other blocks leave over.
-/

/-- Natural blocks, apart from each other, that cover the frames from `first` up to `last`. -/
structure Tiled (first last : Nat) (blocks : Set Block) : Prop where
  natural : ∀ x ∈ blocks, x.Natural
  small : ∀ x ∈ blocks, x.order ≤ Order.top
  inside : ∀ x ∈ blocks, first ≤ x.start ∧ x.stop ≤ last
  apart : ∀ x ∈ blocks, ∀ y ∈ blocks, x ≠ y → x.Apart y
  covered : ∀ frame, first ≤ frame → frame < last → ∃ x ∈ blocks, x.Holds frame

/-- A natural run of the range that meets none of the given blocks. -/
structure Spare (first last : Nat) (live : Set Block) (x : Block) : Prop where
  natural : x.Natural
  small : x.order ≤ Order.top
  inside : first ≤ x.start ∧ x.stop ≤ last
  unused : ∀ y ∈ live, x.Apart y

namespace Tiled

variable {first last frame : Nat} {blocks free live : Set Block} {x y : Block}

theorem holds_inside (tiled : Tiled first last blocks) (member : x ∈ blocks) (holds : x.Holds frame) :
    first ≤ frame ∧ frame < last := by
  have := tiled.inside x member
  have := holds.1
  have := holds.2
  omega

theorem unique (tiled : Tiled first last blocks) (left : x ∈ blocks) (right : y ∈ blocks)
    (leftHolds : x.Holds frame) (rightHolds : y.Holds frame) : x = y := by
  by_contra different
  exact Block.apart_iff.mp (tiled.apart x left y right different) frame leftHolds rightHolds

theorem eq_of_within (tiled : Tiled first last blocks) (left : x ∈ blocks) (right : y ∈ blocks)
    (within : x.Within y) : x = y := by
  by_contra different
  exact Block.not_apart_of_within within (tiled.apart x left y right different)

theorem empty (first : Nat) : Tiled first first ∅ where
  natural := by simp
  small := by simp
  inside := by simp
  apart := by simp
  covered frame lower upper := by omega

theorem extend (tiled : Tiled first x.start blocks) (natural : x.Natural)
    (small : x.order ≤ Order.top) (le : first ≤ x.start) :
    Tiled first x.stop (insert x blocks) where
  natural y member := by
    rcases Set.mem_insert_iff.mp member with rfl | member
    · exact natural
    · exact tiled.natural y member
  small y member := by
    rcases Set.mem_insert_iff.mp member with rfl | member
    · exact small
    · exact tiled.small y member
  inside y member := by
    have past := x.start_lt_stop
    rcases Set.mem_insert_iff.mp member with rfl | member
    · exact ⟨le, le_rfl⟩
    · have := tiled.inside y member
      omega
  apart y left z right different := by
    rcases Set.mem_insert_iff.mp left with rfl | before
    · rcases Set.mem_insert_iff.mp right with rfl | after
      · exact absurd rfl different
      · exact .inr (tiled.inside z after).2
    · rcases Set.mem_insert_iff.mp right with rfl | after
      · exact .inl (tiled.inside y before).2
      · exact tiled.apart y before z after different
  covered frame lower upper := by
    by_cases before : frame < x.start
    · obtain ⟨y, member, holds⟩ := tiled.covered frame lower before
      exact ⟨y, .inr member, holds⟩
    · exact ⟨x, .inl rfl, Nat.le_of_not_lt before, upper⟩

/-- Blocks of a tiling may be exchanged for natural blocks that hold the same frames. -/
theorem exchange {old new rest : Set Block} (tiled : Tiled first last (old ∪ rest))
    (separate : ∀ x ∈ old, x ∉ rest)
    (natural : ∀ x ∈ new, x.Natural) (small : ∀ x ∈ new, x.order ≤ Order.top)
    (apart : ∀ x ∈ new, ∀ y ∈ new, x ≠ y → x.Apart y)
    (same : ∀ frame, (∃ x ∈ old, x.Holds frame) ↔ ∃ x ∈ new, x.Holds frame) :
    Tiled first last (new ∪ rest) := by
  have newFromOld : ∀ x ∈ new, ∀ frame, x.Holds frame → ∃ y ∈ old, y.Holds frame :=
    fun x member frame holds => (same frame).mpr ⟨x, member, holds⟩
  have newInside : ∀ x ∈ new, ∀ frame, x.Holds frame → first ≤ frame ∧ frame < last := by
    intro x member frame holds
    obtain ⟨y, oldMember, oldHolds⟩ := newFromOld x member frame holds
    exact tiled.holds_inside (.inl oldMember) oldHolds
  have newApart : ∀ x ∈ new, ∀ y ∈ rest, x.Apart y := by
    intro x member y restMember
    refine Block.apart_iff.mpr fun frame holds restHolds => ?_
    obtain ⟨z, oldMember, oldHolds⟩ := newFromOld x member frame holds
    have equal := tiled.unique (.inl oldMember) (.inr restMember) oldHolds restHolds
    exact separate z oldMember (equal ▸ restMember)
  exact {
    natural := by
      intro x member
      cases member with
      | inl member => exact natural x member
      | inr kept => exact tiled.natural x (.inr kept)
    small := by
      intro x member
      cases member with
      | inl member => exact small x member
      | inr kept => exact tiled.small x (.inr kept)
    inside := by
      intro x member
      cases member with
      | inl member =>
          have start := newInside x member _ x.holds_start
          have last := newInside x member _ x.holds_last
          have := x.start_lt_stop
          omega
      | inr kept => exact tiled.inside x (.inr kept)
    apart := by
      rintro x (left | left) y (right | right) different
      · exact apart x left y right different
      · exact newApart x left y right
      · exact (newApart y right x left).symm
      · exact tiled.apart x (.inr left) y (.inr right) different
    covered := by
      intro frame lower upper
      obtain ⟨x, member | kept, holds⟩ := tiled.covered frame lower upper
      · obtain ⟨y, newMember, newHolds⟩ := (same frame).mp ⟨x, member, holds⟩
        exact ⟨y, .inl newMember, newHolds⟩
      · exact ⟨x, .inr kept, holds⟩ }

theorem split {rest : Set Block} {start half : Nat}
    (tiled : Tiled first last (insert ⟨start, half + 1⟩ rest))
    (fresh : (⟨start, half + 1⟩ : Block) ∉ rest) :
    Tiled first last (insert ⟨start, half⟩ (insert ⟨start + 2 ^ half, half⟩ rest)) := by
  have whole : (⟨start, half + 1⟩ : Block) ∈ insert ⟨start, half + 1⟩ rest := Set.mem_insert _ _
  obtain ⟨lowerNatural, buddy⟩ := Block.Natural.lower_half (tiled.natural _ whole)
  have order : half ≤ Order.top := (Nat.le_succ half).trans (tiled.small _ whole)
  have halves : insert ⟨start, half⟩ (insert ⟨start + 2 ^ half, half⟩ rest) =
      ({⟨start, half⟩, ⟨start + 2 ^ half, half⟩} : Set Block) ∪ rest := by
    ext block
    simp [or_assoc]
  rw [Set.insert_eq] at tiled
  rw [halves]
  refine tiled.exchange ?_ ?_ ?_ ?_ ?_
  · rintro x rfl
    exact fresh
  · rintro x (rfl | rfl)
    · exact lowerNatural
    · exact buddy ▸ lowerNatural.buddy_natural
  · rintro x (rfl | rfl) <;> exact order
  · rintro x (rfl | rfl) y (rfl | rfl) different
    · exact absurd rfl different
    · exact .inl (Nat.le_refl _)
    · exact .inr (Nat.le_refl _)
    · exact absurd rfl different
  · intro frame
    simp [Block.holds_halves_iff]

theorem join {rest : Set Block} (tiled : Tiled first last (insert x (insert x.buddy rest)))
    (fresh : x ∉ rest) (buddyFresh : x.buddy ∉ rest) (small : x.order < Order.top) :
    Tiled first last (insert x.parent rest) := by
  have natural : x.Natural := tiled.natural x (Set.mem_insert _ _)
  have pair : insert x (insert x.buddy rest) = ({x, x.buddy} : Set Block) ∪ rest := by
    ext block
    simp [or_assoc]
  rw [pair] at tiled
  rw [Set.insert_eq]
  refine tiled.exchange ?_ ?_ ?_ ?_ ?_
  · rintro y (rfl | rfl)
    · exact fresh
    · exact buddyFresh
  · rintro y rfl
    exact natural.parent_natural
  · rintro y rfl
    exact small
  · rintro y rfl z rfl different
    exact absurd rfl different
  · intro frame
    simp [natural.parent_holds_iff]

/-- Where free blocks are never buddies, a natural run that meets no other block lies in a single
free block. -/
theorem run_within_free (tiled : Tiled first last (free ∪ live))
    (coalesced : ∀ x ∈ free, x.order < Order.top → x.buddy ∉ free)
    {run : Block} (spare : Spare first last live run) : ∃ x ∈ free, run.Within x := by
  obtain ⟨natural, small, inside, unused⟩ := spare
  obtain ⟨start, order⟩ := run
  induction order generalizing start with
  | zero =>
      have startInside : start < last := lt_of_lt_of_le (Block.start_lt_stop ⟨start, 0⟩) inside.2
      obtain ⟨x, member | member, holds⟩ := tiled.covered start inside.1 startInside
      · exact ⟨x, member, holds.1, holds.2⟩
      · exact absurd holds (Block.apart_iff.mp (unused x member) start (Block.holds_start _))
  | succ order ih =>
      obtain ⟨lowerNatural, buddy⟩ := Block.Natural.lower_half natural
      have upperNatural := buddy ▸ lowerNatural.buddy_natural
      obtain ⟨lowerWithin, upperWithin⟩ := Block.halves_within start order
      have bound : order ≤ Order.top := (Nat.le_succ order).trans small
      -- a free block around one half is that half or reaches around the whole run
      have around : ∀ half : Block, half.order = order → half.Within ⟨start, order + 1⟩ →
          ∀ x ∈ free, half.Within x → x = half ∨ Block.Within ⟨start, order + 1⟩ x := by
        intro half sameOrder halfWithin x member within
        by_cases grown : order + 1 ≤ x.order
        · rcases natural.apart_or_within (tiled.natural x (.inl member)) grown with apart | whole
          · exact absurd (apart.of_within halfWithin) (Block.not_apart_of_within within)
          · exact .inr whole
        · exact .inl (within.eq_of_order_le (by omega)).symm
      obtain ⟨x, member, holds⟩ := ih start lowerNatural bound
        ⟨inside.1, lowerWithin.2.trans inside.2⟩
        (fun y used => (unused y used).of_within lowerWithin)
      obtain ⟨y, otherMember, otherHolds⟩ := ih (start + 2 ^ order) upperNatural bound
        ⟨inside.1.trans upperWithin.1, upperWithin.2.trans inside.2⟩
        (fun y used => (unused y used).of_within upperWithin)
      rcases around ⟨start, order⟩ rfl lowerWithin x member holds with rfl | whole
      · rcases around ⟨start + 2 ^ order, order⟩ rfl upperWithin y otherMember otherHolds
          with rfl | whole
        · exact absurd (buddy ▸ otherMember) (coalesced _ member small)
        · exact ⟨y, otherMember, whole⟩
      · exact ⟨x, member, whole⟩

theorem spare (tiled : Tiled first last (free ∪ live)) (separate : ∀ x ∈ free, x ∉ live)
    (member : x ∈ free) : Spare first last live x where
  natural := tiled.natural x (.inl member)
  small := tiled.small x (.inl member)
  inside := tiled.inside x (.inl member)
  unused y used := tiled.apart x (.inl member) y (.inr used) fun same =>
    separate x member (same ▸ used)

/-- The free blocks of a coalesced tiling are the largest natural runs that meet no other block. -/
theorem free_iff_maximal (tiled : Tiled first last (free ∪ live))
    (coalesced : ∀ x ∈ free, x.order < Order.top → x.buddy ∉ free)
    (separate : ∀ x ∈ free, x ∉ live) :
    x ∈ free ↔ Spare first last live x ∧ ∀ y, Spare first last live y → x.Within y → x = y := by
  constructor
  · intro member
    refine ⟨tiled.spare separate member, fun y spare within => ?_⟩
    obtain ⟨z, freeMember, around⟩ := tiled.run_within_free coalesced spare
    obtain rfl := tiled.eq_of_within (.inl member) (.inl freeMember) (within.trans around)
    exact within.eq_of_order_le around.order_le
  · rintro ⟨spare, maximal⟩
    obtain ⟨y, member, within⟩ := tiled.run_within_free coalesced spare
    rw [maximal y (tiled.spare separate member) within]
    exact member

/-- No tiling has fewer blocks than one without buddies: each of its blocks lies in one of those, and
none of those is left without. -/
theorem encard_le (tiled : Tiled first last free)
    (coalesced : ∀ x ∈ free, x.order < Order.top → x.buddy ∉ free) (other : Tiled first last blocks) :
    free.encard ≤ blocks.encard := by
  have around : ∀ y ∈ blocks, ∃ x ∈ free, y.Within x := by
    intro y member
    have spare : Spare first last ∅ y :=
      ⟨other.natural y member, other.small y member, other.inside y member, nofun⟩
    exact run_within_free (by rwa [Set.union_empty]) coalesced spare
  choose! host hostFree hostWithin using around
  have reached : free ⊆ host '' blocks := by
    intro x member
    have inside := tiled.holds_inside member x.holds_start
    obtain ⟨y, placed, holds⟩ := other.covered x.start inside.1 inside.2
    have held : (host y).Holds x.start :=
      ⟨(hostWithin y placed).1.trans holds.1, holds.2.trans_le (hostWithin y placed).2⟩
    exact ⟨y, placed, tiled.unique (hostFree y placed) member held x.holds_start⟩
  calc free.encard ≤ (host '' blocks).encard := Set.encard_le_encard reached
    _ ≤ blocks.encard := Set.encard_image_le _ _

theorem sum_pages_eq_card {members : List Block} (tiled : Tiled first last blocks)
    (some : ∀ x ∈ members, x ∈ blocks) (distinct : members.Nodup) :
    (members.map Block.pages).sum =
      (members.toFinset.biUnion fun x => Finset.Ico x.start x.stop).card := by
  have disjoint : (members.toFinset : Set Block).PairwiseDisjoint
      (fun x => Finset.Ico x.start x.stop) := by
    intro x left y right different
    refine Finset.disjoint_left.mpr fun frame leftHolds rightHolds => different ?_
    exact tiled.unique (some x (by simpa using left)) (some y (by simpa using right))
      (Finset.mem_Ico.mp leftHolds) (Finset.mem_Ico.mp rightHolds)
  calc (members.map Block.pages).sum
      = ∑ x ∈ members.toFinset, x.pages := (List.sum_toFinset _ distinct).symm
    _ = ∑ x ∈ members.toFinset, (Finset.Ico x.start x.stop).card :=
        Finset.sum_congr rfl fun x _ => by rw [Nat.card_Ico, Block.stop, Nat.add_sub_cancel_left]
    _ = _ := (Finset.card_biUnion disjoint).symm

theorem sum_pages {members : List Block} (tiled : Tiled first last {x | x ∈ members})
    (distinct : members.Nodup) : (members.map Block.pages).sum = last - first := by
  have frames : members.toFinset.biUnion (fun x => Finset.Ico x.start x.stop) =
      Finset.Ico first last := by
    ext frame
    simp only [Finset.mem_biUnion, List.mem_toFinset, Finset.mem_Ico]
    constructor
    · rintro ⟨x, member, holds⟩
      exact tiled.holds_inside member holds
    · rintro ⟨lower, upper⟩
      exact tiled.covered frame lower upper
  rw [tiled.sum_pages_eq_card (fun x member => member) distinct, frames, Nat.card_Ico]

theorem sum_pages_le {members : List Block} (tiled : Tiled first last blocks)
    (some : ∀ x ∈ members, x ∈ blocks) (distinct : members.Nodup) :
    (members.map Block.pages).sum ≤ last - first := by
  rw [tiled.sum_pages_eq_card some distinct, ← Nat.card_Ico]
  refine Finset.card_le_card fun frame inside => ?_
  obtain ⟨x, member, holds⟩ := Finset.mem_biUnion.mp inside
  have := tiled.holds_inside (some x (List.mem_toFinset.mp member)) (Finset.mem_Ico.mp holds)
  exact Finset.mem_Ico.mpr this

end Tiled

end ZonedMemory
