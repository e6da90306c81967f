import ZonedMemory.Proofs.Buddy.Chain
import ZonedMemory.Proofs.Tiling

namespace ZonedMemory.Buddy

/-!
A buddy as blocks: the free ones, which the lists name, the live ones and those that an operation
holds in its hands while it moves them about. An operation is a sequence of moves: a block is taken
into the hands, cut, joined with another, and given away again. What the records of pages say plays
no part in a partition, so it holds of records that lie as well.
-/

/-- The buddy stands where its range says, inside the address space. -/
structure Placed (b : Buddy) : Prop where
  base : b.range.base = b.firstFrame * pageSize
  size : b.range.size = b.pages.size * pageSize
  few : b.pages.size < PageRecord.noLink
  word : b.range.base + b.range.size < 2 ^ 64

/-- The blocks that lists of page indices stand for, in a range from frame `first` on. -/
def listedBlocks (first : Nat) (chains : Nat → List Nat) : Set Block :=
  {x | ∃ index ∈ chains x.order, x.start = first + index}

/-- Free, live and held blocks share out the range. -/
structure Partition (b : Buddy) (chains : Nat → List Nat) (live : List Block) (held : Set Block) :
    Prop where
  placed : b.Placed
  listed : b.Listed chains
  tiled : Tiled b.firstFrame (b.firstFrame + b.pages.size)
    (held ∪ (listedBlocks b.firstFrame chains ∪ {x | x ∈ live}))
  unheld : ∀ x ∈ held, x ∉ listedBlocks b.firstFrame chains ∧ x ∉ live
  separate : ∀ x ∈ listedBlocks b.firstFrame chains, x ∉ live
  distinct : live.Nodup

variable {b c after : Buddy} {chains : Nat → List Nat} {live : List Block} {held : Set Block}
  {x y : Block} {first index order frame : Nat}

namespace Placed

theorem extent (placed : b.Placed) (same : SameExtent b after) : after.Placed where
  base := by rw [same.range, same.firstFrame, placed.base]
  size := by rw [same.range, same.size, placed.size]
  few := by rw [same.size]; exact placed.few
  word := by rw [same.range]; exact placed.word

theorem frames_word (placed : b.Placed) : (b.firstFrame + b.pages.size) * pageSize < 2 ^ 64 := by
  have := placed.word
  rwa [placed.base, placed.size, ← Nat.add_mul] at this

theorem frames_lt (placed : b.Placed) : b.firstFrame + b.pages.size < 2 ^ 52 := by
  have word := placed.frames_word
  have : 2 ^ 64 = 2 ^ 52 * pageSize := rfl
  exact Nat.lt_of_mul_lt_mul_right (this ▸ word)

theorem frames (placed : b.Placed) {pages : Nat}
    (range : b.range = ⟨first * pageSize, pages * pageSize⟩) :
    b.firstFrame = first ∧ b.pages.size = pages := by
  have base := placed.base
  have size := placed.size
  rw [range] at base size
  exact ⟨Nat.eq_of_mul_eq_mul_right pageSize_pos base.symm,
    Nat.eq_of_mul_eq_mul_right pageSize_pos size.symm⟩

theorem same_frames (placed : b.Placed) (other : c.Placed) (range : c.range = b.range) :
    c.firstFrame = b.firstFrame ∧ c.pages.size = b.pages.size := by
  refine other.frames (range.trans ?_)
  rw [← placed.base, ← placed.size]

end Placed

theorem listedBlocks_insert {chain : List Nat}
    (gained : ∀ page, page ∈ chain ↔ page = index ∨ page ∈ chains order) :
    listedBlocks first (Function.update chains order chain) =
      insert ⟨first + index, order⟩ (listedBlocks first chains) := by
  ext ⟨start, k⟩
  by_cases same : k = order
  · subst same
    simp [listedBlocks, gained, or_and_right, exists_or]
  · simp [listedBlocks, same]

theorem listedBlocks_erase (first index : Nat) (distinct : (chains order).Nodup) :
    listedBlocks first (Function.update chains order ((chains order).erase index)) =
      listedBlocks first chains \ {⟨first + index, order⟩} := by
  ext ⟨start, k⟩
  by_cases same : k = order
  · subst same
    simp only [listedBlocks, Set.mem_ofPred_eq, Function.update_self, distinct.mem_erase_iff,
      Set.mem_sdiff, Set.mem_singleton_iff, Block.mk.injEq, and_true]
    constructor
    · intro image
      obtain ⟨other, ⟨different, member⟩, rfl⟩ := image
      exact ⟨⟨other, member, rfl⟩, fun equal => different (Nat.add_left_cancel equal)⟩
    · intro image
      obtain ⟨⟨other, member, rfl⟩, different⟩ := image
      exact ⟨other, ⟨fun equal => different (by rw [equal]), member⟩, rfl⟩
  · simp [listedBlocks, same]

namespace Partition

theorem start_ne (parts : b.Partition chains live held) (inHand : x ∈ held)
    (other : y ∈ listedBlocks b.firstFrame chains ∨ y ∈ live) : x.start ≠ y.start := by
  intro same
  have equal : x = y := parts.tiled.unique (.inl inHand) (.inr other) x.holds_start
    (same ▸ y.holds_start)
  have unheld := parts.unheld x inHand
  rw [equal] at unheld
  rcases other with member | member
  · exact unheld.1 member
  · exact unheld.2 member

theorem indexed (parts : b.Partition chains live held)
    (member : x ∈ held ∪ (listedBlocks b.firstFrame chains ∪ {x | x ∈ live})) :
    ∃ index, index + x.pages ≤ b.pages.size ∧ x.start = b.firstFrame + index := by
  have inside := parts.tiled.inside x member
  refine ⟨x.start - b.firstFrame, ?_, by omega⟩
  have : x.stop = x.start + x.pages := rfl
  omega

/-- The index of the first page of a block that is free, live or held. -/
theorem index_lt (parts : b.Partition chains live held)
    (member : x ∈ held ∪ (listedBlocks b.firstFrame chains ∪ {x | x ∈ live}))
    (start : x.start = b.firstFrame + index) : index < b.pages.size := by
  obtain ⟨other, inside, same⟩ := parts.indexed member
  have := x.pages_pos
  omega

theorem not_listed (parts : b.Partition chains live held) (inHand : x ∈ held)
    (start : x.start = b.firstFrame + index) : ∀ order, index ∉ chains order := by
  intro order member
  exact parts.start_ne inHand (y := ⟨b.firstFrame + index, order⟩) (.inl ⟨index, member, rfl⟩) start

theorem hold_free (parts : b.Partition chains live held) (member : index ∈ chains order)
    (extent : SameExtent b after)
    (listed : after.Listed (Function.update chains order ((chains order).erase index))) :
    after.Partition (Function.update chains order ((chains order).erase index)) live
      (insert ⟨b.firstFrame + index, order⟩ held) := by
  have free : (⟨b.firstFrame + index, order⟩ : Block) ∈ listedBlocks b.firstFrame chains :=
    ⟨index, member, rfl⟩
  have left := listedBlocks_erase b.firstFrame index (parts.listed.nodup order)
  have frame := extent.firstFrame
  refine ⟨parts.placed.extent extent, listed, ?_, ?_, ?_, parts.distinct⟩
  · rw [frame, extent.size, left]
    convert parts.tiled using 1
    ext y
    by_cases same : y = ⟨b.firstFrame + index, order⟩
    · simp [same, free]
    · simp [same]
  · rw [frame, left]
    intro x member
    rcases member with rfl | inHand
    · exact ⟨fun again => again.2 rfl, parts.separate _ free⟩
    · have unheld := parts.unheld x inHand
      exact ⟨fun again => unheld.1 again.1, unheld.2⟩
  · rw [frame, left]
    exact fun x free => parts.separate x free.1

theorem hold_live (parts : b.Partition chains live held) (member : x ∈ live) :
    b.Partition chains (live.erase x) (insert x held) := by
  have erased : ∀ y, y ∈ live.erase x ↔ y ≠ x ∧ y ∈ live := fun y => parts.distinct.mem_erase_iff
  refine ⟨parts.placed, parts.listed, ?_, ?_, ?_, parts.distinct.erase x⟩
  · convert parts.tiled using 1
    ext y
    by_cases same : y = x
    · simp [same, member]
    · simp [same, erased]
  · intro y member
    rcases member with rfl | inHand
    · exact ⟨fun free => parts.separate y free member, fun again => ((erased y).mp again).1 rfl⟩
    · have unheld := parts.unheld y inHand
      exact ⟨unheld.1, fun again => unheld.2 ((erased y).mp again).2⟩
  · exact fun y free used => parts.separate y free ((erased y).mp used).2

theorem cut_held {start half : Nat} (parts : b.Partition chains live {⟨start, half + 1⟩}) :
    b.Partition chains live {⟨start, half⟩, ⟨start + 2 ^ half, half⟩} := by
  have whole := parts.unheld _ rfl
  have tiled := parts.tiled
  rw [← Set.insert_eq] at tiled
  have halves := tiled.split (by simpa using whole)
  have within := Block.halves_within start half
  have outside : ∀ y : Block, y.Within ⟨start, half + 1⟩ →
      y ∉ listedBlocks b.firstFrame chains ∧ y ∉ live := by
    intro y inside
    constructor
    · intro member
      exact whole.1 (parts.tiled.eq_of_within (.inr (.inl member)) (.inl rfl) inside ▸ member)
    · intro member
      exact whole.2 (parts.tiled.eq_of_within (.inr (.inr member)) (.inl rfl) inside ▸ member)
  refine ⟨parts.placed, parts.listed, ?_, ?_, parts.separate, parts.distinct⟩
  · convert halves using 1
    ext y
    simp [or_assoc]
  · intro y member
    rcases member with rfl | rfl
    · exact outside _ within.1
    · exact outside _ within.2

theorem join_held (parts : b.Partition chains live {x, x.buddy}) (small : x.order < Order.top) :
    b.Partition chains live {x.parent} := by
  have natural := parts.tiled.natural x (.inl (.inl rfl))
  have own := parts.unheld x (.inl rfl)
  have other := parts.unheld x.buddy (.inr rfl)
  have inside := natural.within_parent
  have joined : Tiled b.firstFrame (b.firstFrame + b.pages.size)
      (insert x.parent (listedBlocks b.firstFrame chains ∪ {x | x ∈ live})) := by
    refine Tiled.join ?_ (by simpa using own) (by simpa using other) small
    convert parts.tiled using 1
    ext y
    simp [or_assoc]
  have around : ∀ z ∈ listedBlocks b.firstFrame chains ∪ {x | x ∈ live}, z ≠ x.parent := by
    intro z member same
    subst same
    refine parts.tiled.apart x (.inl (.inl rfl)) _ (.inr member) ?_ |> Block.not_apart_of_within inside
    intro equal
    have := congrArg Block.order equal
    simp [Block.parent] at this
  refine ⟨parts.placed, parts.listed, ?_, ?_, parts.separate, parts.distinct⟩
  · rw [← Set.insert_eq]
    exact joined
  · intro y member
    subst member
    exact ⟨fun member => around _ (.inl member) rfl, fun member => around _ (.inr member) rfl⟩

theorem retagged (parts : b.Partition chains live held) (index : Nat) (state : BlockState) :
    (b.retagged index state).Partition chains live held := by
  have extent := retagged_extent b index state
  refine ⟨parts.placed.extent extent, parts.listed.retagged _ _, ?_, parts.unheld, parts.separate,
    parts.distinct⟩
  rw [extent.size, extent.firstFrame]
  exact parts.tiled

theorem give_free (parts : b.Partition chains live (insert x held)) (fresh : x ∉ held)
    (start : x.start = b.firstFrame + index) :
    ∃ after, (b.retagged index (.free x.order)).push index x.order = .ok after ∧
      SameExtent b after ∧ after.stateAt? = (b.retagged index (.free x.order)).stateAt? ∧
      after.Partition (Function.update chains x.order (index :: chains x.order)) live held := by
  have inHand : x ∈ insert x held := .inl rfl
  have bound := parts.index_lt (.inl inHand) start
  have small : x.order < Order.count := Nat.lt_succ_of_le (parts.tiled.small x (.inl inHand))
  have tagged := retagged_extent b index (.free x.order)
  obtain ⟨after, pushed, extent, states, listed⟩ := push_listed
    (parts.listed.retagged index (.free x.order))
    (by rw [tagged.size]; exact parts.placed.few) (by rwa [tagged.size]) small
    (parts.not_listed inHand start)
  have whole := tagged.trans extent
  have more : listedBlocks b.firstFrame (Function.update chains x.order (index :: chains x.order)) =
      insert x (listedBlocks b.firstFrame chains) := by
    rw [listedBlocks_insert fun page => List.mem_cons, ← start]
  have frame := whole.firstFrame
  refine ⟨after, pushed, whole, states, parts.placed.extent whole, listed, ?_, ?_, ?_, parts.distinct⟩
  · rw [frame, whole.size, more]
    convert parts.tiled using 1
    ext y
    simp only [Set.mem_union, Set.mem_insert_iff]
    tauto
  · rw [frame, more]
    intro y inHand
    have unheld := parts.unheld y (.inr inHand)
    refine ⟨?_, unheld.2⟩
    intro member
    rcases member with equal | member
    · exact fresh (equal ▸ inHand)
    · exact unheld.1 member
  · rw [frame, more]
    intro y member
    rcases member with rfl | free
    · exact (parts.unheld y inHand).2
    · exact parts.separate y free

theorem give_live (parts : b.Partition chains live {x}) : b.Partition chains (x :: live) ∅ := by
  have absent := parts.unheld x rfl
  refine ⟨parts.placed, parts.listed, ?_, by simp, ?_, List.nodup_cons.mpr ⟨absent.2, parts.distinct⟩⟩
  · have same : ∅ ∪ (listedBlocks b.firstFrame chains ∪ {y | y ∈ x :: live}) =
        {x} ∪ (listedBlocks b.firstFrame chains ∪ {y | y ∈ live}) := by
      ext y
      simp only [Set.mem_union, Set.mem_empty_iff_false, Set.mem_singleton_iff, Set.mem_ofPred_eq,
        List.mem_cons]
      tauto
    rw [same]
    exact parts.tiled
  · intro y free used
    rcases List.mem_cons.mp used with rfl | used
    · exact absent.1 free
    · exact parts.separate y free used

theorem withFreePages (parts : b.Partition chains live held) (count : Nat) :
    Partition { b with freePages := count } chains live held :=
  ⟨⟨parts.placed.base, parts.placed.size, parts.placed.few, parts.placed.word⟩,
    parts.listed.withFreePages count, parts.tiled, parts.unheld, parts.separate, parts.distinct⟩

/-- Between two operations a frame of the range is free or live. -/
theorem free_frame_iff (parts : b.Partition chains live ∅) :
    (∃ y ∈ listedBlocks b.firstFrame chains, y.Holds frame) ↔
      b.firstFrame ≤ frame ∧ frame < b.firstFrame + b.pages.size ∧ ∀ y ∈ live, ¬ y.Holds frame := by
  constructor
  · intro holding
    obtain ⟨y, free, holds⟩ := holding
    have inside := parts.tiled.holds_inside (.inr (.inl free)) holds
    refine ⟨inside.1, inside.2, fun z used usedHolds => ?_⟩
    obtain rfl := parts.tiled.unique (.inr (.inl free)) (.inr (.inr used)) holds usedHolds
    exact parts.separate y free used
  · intro covered
    obtain ⟨lower, upper, unused⟩ := covered
    obtain ⟨y, (none | free | used), holds⟩ := parts.tiled.covered frame lower upper
    · exact absurd none (Set.notMem_empty y)
    · exact ⟨y, free, holds⟩
    · exact absurd holds (unused y used)

end Partition

/-- A way to read a buddy as blocks that no move breaks. What operations do is proved for all of them
at once: a reading may know no more than the partition, or everything that the records say. -/
structure Reading (R : Buddy → (Nat → List Nat) → List Block → Set Block → Prop) : Prop where
  partition : ∀ {b chains live held}, R b chains live held → b.Partition chains live held
  hold_free : ∀ {b after chains live held index order}, R b chains live held → index ∈ chains order →
    SameExtent b after → after.stateAt? = b.stateAt? →
    after.Listed (Function.update chains order ((chains order).erase index)) →
    R after (Function.update chains order ((chains order).erase index)) live
      (insert ⟨b.firstFrame + index, order⟩ held)
  hold_live : ∀ {b chains live held x}, R b chains live held → x ∈ live →
    R b chains (live.erase x) (insert x held)
  cut_held : ∀ {b chains live start half}, R b chains live {⟨start, half + 1⟩} →
    R b chains live {⟨start, half⟩, ⟨start + 2 ^ half, half⟩}
  /-- The record of the upper half becomes a tail. -/
  join_held : ∀ {b chains live x index}, R b chains live {x, Block.buddy x} → x.order < Order.top →
    index < b.pages.size → b.firstFrame + index = max x.start x.buddy.start →
    R (b.retagged index .tail) chains live {x.parent}
  /-- A block is given to its list when its buddy is not on the list, or not tagged as free. -/
  give_free : ∀ {b chains live held x index}, R b chains live (insert x held) → x ∉ held →
    x.start = b.firstFrame + index →
    (x.order < Order.top → x.buddy ∈ listedBlocks b.firstFrame chains →
      b.stateAt? x.buddy.start ≠ some (.free x.order)) →
    ∃ after, (b.retagged index (.free x.order)).push index x.order = .ok after ∧
      SameExtent b after ∧ R after (Function.update chains x.order (index :: chains x.order)) live held
  give_live : ∀ {b chains live x index}, R b chains live {x} → x.start = b.firstFrame + index →
    R (b.retagged index (.allocated x.order)) chains (x :: live) ∅
  withFreePages : ∀ {b chains live held} (count : Nat), R b chains live held →
    R { b with freePages := count } chains live held

/-- Nothing is held, and every page that is not free is live. -/
structure Rested (R : Buddy → (Nat → List Nat) → List Block → Set Block → Prop) (b : Buddy)
    (live : List Block) : Prop where
  blocks : ∃ chains, R b chains live ∅
  accounted : b.freePages + (live.map Block.pages).sum = b.pages.size

theorem Partition.reading : Reading Partition where
  partition parts := parts
  hold_free parts member extent _ listed := parts.hold_free member extent listed
  hold_live parts member := parts.hold_live member
  cut_held parts := parts.cut_held
  join_held parts small _ _ := (parts.join_held small).retagged _ _
  give_free parts fresh start _ := by
    obtain ⟨after, pushed, extent, _, given⟩ := parts.give_free fresh start
    exact ⟨after, pushed, extent, given⟩
  give_live parts _ := parts.give_live.retagged _ _
  withFreePages count parts := parts.withFreePages count

end ZonedMemory.Buddy
