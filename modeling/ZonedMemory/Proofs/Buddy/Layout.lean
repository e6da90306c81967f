import ZonedMemory.Proofs.Buddy.Partition

namespace ZonedMemory.Buddy

/-!
A partition that the records tell. Records say which blocks are free and which live; of a held block
they may say anything. No two free blocks are buddies, because a block is given to its list only when
its buddy is not there.
-/

structure Layout (b : Buddy) (chains : Nat → List Nat) (live : List Block) (held : Set Block) :
    Prop where
  placed : b.Placed
  listed : b.Listed chains
  tiled : Tiled b.firstFrame (b.firstFrame + b.pages.size)
    (held ∪ (listedBlocks b.firstFrame chains ∪ {x | x ∈ live}))
  coalesced : ∀ x ∈ listedBlocks b.firstFrame chains, x.order < Order.top →
    x.buddy ∉ listedBlocks b.firstFrame chains
  free_iff : ∀ frame order, (∀ x ∈ held, x.start ≠ frame) →
    (b.stateAt? frame = some (.free order) ↔ ⟨frame, order⟩ ∈ listedBlocks b.firstFrame chains)
  live_iff : ∀ frame order, (∀ x ∈ held, x.start ≠ frame) →
    (b.stateAt? frame = some (.allocated order) ↔ ⟨frame, order⟩ ∈ live)
  apartFromHeld : ∀ x ∈ held, x ∉ listedBlocks b.firstFrame chains ∧ x ∉ live
  distinct : live.Nodup

/-- The buddy between two operations: nothing is held, and every page that is not free is live. -/
structure Settled (b : Buddy) (live : List Block) : Prop where
  layout : ∃ chains, b.Layout chains live ∅
  accounted : b.freePages + (live.map Block.pages).sum = b.pages.size

variable {b after : Buddy} {chains : Nat → List Nat} {live : List Block} {held : Set Block}
  {x : Block} {index order : Nat}

/-- A block gets the tag of its order: that tag now names one more block. -/
theorem tagged_iff {tag : Nat → BlockState} {s : Set Block} {state : Option BlockState} {frame : Nat}
    (injective : tag.Injective) (absent : ∀ y ∈ s, x.start ≠ y.start)
    (elsewhere : frame ≠ x.start → (state = some (tag order) ↔ ⟨frame, order⟩ ∈ s)) :
    (if frame = x.start then some (tag x.order) else state) = some (tag order) ↔
      ⟨frame, order⟩ ∈ insert x s := by
  by_cases same : frame = x.start
  · subst same
    have unlisted : (⟨x.start, order⟩ : Block) ∉ s := fun member => absent _ member rfl
    rw [if_pos rfl, Set.mem_insert_iff, or_iff_left unlisted, Option.some_inj, injective.eq_iff]
    exact ⟨fun equal => by rw [← equal], fun equal => congrArg Block.order equal.symm⟩
  · have different : (⟨frame, order⟩ : Block) ≠ x := fun equal => same (congrArg Block.start equal)
    rw [if_neg same, elsewhere same, Set.mem_insert_iff, or_iff_right different]

theorem untagged_iff {tag other : Nat → BlockState} {s : Set Block} {state : Option BlockState}
    {frame : Nat} (different : ∀ i j, other i ≠ tag j) (absent : ∀ y ∈ s, x.start ≠ y.start)
    (elsewhere : frame ≠ x.start → (state = some (tag order) ↔ ⟨frame, order⟩ ∈ s)) :
    (if frame = x.start then some (other x.order) else state) = some (tag order) ↔
      ⟨frame, order⟩ ∈ s := by
  by_cases same : frame = x.start
  · subst same
    have unlisted : (⟨x.start, order⟩ : Block) ∉ s := fun member => absent _ member rfl
    rw [if_pos rfl, Option.some_inj]
    exact iff_of_false (different _ _) unlisted
  · rw [if_neg same]
    exact elsewhere same

/-- A block whose buddy is not free joins the free ones, and still no two of them are buddies. -/
theorem coalesced_insert {blocks : Set Block} (natural : x.Natural)
    (coalesced : ∀ y ∈ blocks, y.order < Order.top → y.buddy ∉ blocks)
    (lone : x.order < Order.top → x.buddy ∉ blocks) :
    ∀ y ∈ insert x blocks, y.order < Order.top → y.buddy ∉ insert x blocks := by
  intro y member less again
  rcases Set.mem_insert_iff.mp member with rfl | free
  · rcases Set.mem_insert_iff.mp again with itself | free
    · have met := natural.buddy_apart
      rw [itself] at met
      exact Block.not_apart_self y met
    · exact lone less free
  · rcases Set.mem_insert_iff.mp again with rfl | buddyFree
    · rw [Block.buddy_buddy] at lone
      exact lone less free
    · exact coalesced y free less buddyFree

namespace Layout

theorem free_not_live (layout : b.Layout chains live held)
    (member : x ∈ listedBlocks b.firstFrame chains) : x ∉ live := by
  intro used
  have elsewhere : ∀ y ∈ held, y.start ≠ x.start := by
    intro y inHand same
    obtain rfl := layout.tiled.unique (.inl inHand) (.inr (.inl member)) y.holds_start
      (same ▸ x.holds_start)
    exact (layout.apartFromHeld y inHand).1 member
  have state := (layout.free_iff x.start x.order elsewhere).mpr member
  rw [(layout.live_iff x.start x.order elsewhere).mpr used] at state
  cases state

theorem partition (layout : b.Layout chains live held) : b.Partition chains live held where
  placed := layout.placed
  listed := layout.listed
  tiled := layout.tiled
  unheld := layout.apartFromHeld
  separate _ member := layout.free_not_live member
  distinct := layout.distinct

/-- A partition gains what the records say of it. -/
theorem ofPartition (parts : b.Partition chains live held)
    (coalesced : ∀ x ∈ listedBlocks b.firstFrame chains, x.order < Order.top →
      x.buddy ∉ listedBlocks b.firstFrame chains)
    (free_iff : ∀ frame order, (∀ x ∈ held, x.start ≠ frame) →
      (b.stateAt? frame = some (.free order) ↔ ⟨frame, order⟩ ∈ listedBlocks b.firstFrame chains))
    (live_iff : ∀ frame order, (∀ x ∈ held, x.start ≠ frame) →
      (b.stateAt? frame = some (.allocated order) ↔ ⟨frame, order⟩ ∈ live)) :
    b.Layout chains live held :=
  ⟨parts.placed, parts.listed, parts.tiled, coalesced, free_iff, live_iff, parts.unheld, parts.distinct⟩

theorem hold_free (layout : b.Layout chains live held) (member : index ∈ chains order)
    (extent : SameExtent b after) (states : after.stateAt? = b.stateAt?)
    (listed : after.Listed (Function.update chains order ((chains order).erase index))) :
    after.Layout (Function.update chains order ((chains order).erase index)) live
      (insert ⟨b.firstFrame + index, order⟩ held) := by
  have left := listedBlocks_erase b.firstFrame index (layout.listed.nodup order)
  have frame := extent.firstFrame
  refine ofPartition (layout.partition.hold_free member extent listed) ?_ ?_ ?_
  · rw [frame, left]
    exact fun x member small again => layout.coalesced x member.1 small again.1
  · intro frame' order' apart
    rw [states, frame, left, layout.free_iff frame' order' fun x inHand => apart x (.inr inHand)]
    have different : (⟨frame', order'⟩ : Block) ≠ ⟨b.firstFrame + index, order⟩ := fun equal =>
      apart _ (.inl rfl) (congrArg Block.start equal.symm)
    simp [different]
  · intro frame' order' apart
    rw [states, layout.live_iff frame' order' fun x inHand => apart x (.inr inHand)]

theorem hold_live (layout : b.Layout chains live held) (member : x ∈ live) :
    b.Layout chains (live.erase x) (insert x held) := by
  refine ofPartition (layout.partition.hold_live member) layout.coalesced ?_ ?_
  · exact fun frame order apart => layout.free_iff frame order fun y inHand => apart y (.inr inHand)
  · intro frame order apart
    have different : (⟨frame, order⟩ : Block) ≠ x := fun equal =>
      apart x (.inl rfl) (congrArg Block.start equal.symm)
    rw [layout.live_iff frame order fun y inHand => apart y (.inr inHand),
      layout.distinct.mem_erase_iff, and_iff_right different]

theorem cut_held {start half : Nat} (layout : b.Layout chains live {⟨start, half + 1⟩}) :
    b.Layout chains live {⟨start, half⟩, ⟨start + 2 ^ half, half⟩} := by
  refine ofPartition layout.partition.cut_held layout.coalesced ?_ ?_
  · refine fun frame order apart => layout.free_iff frame order ?_
    intro y same
    subst same
    exact apart ⟨start, half⟩ (.inl rfl)
  · refine fun frame order apart => layout.live_iff frame order ?_
    intro y same
    subst same
    exact apart ⟨start, half⟩ (.inl rfl)

/-- Joining a held block with its held buddy; the record of the upper one becomes a tail. -/
theorem join_held (layout : b.Layout chains live {x, x.buddy}) (small : x.order < Order.top)
    (bound : index < b.pages.size) (upper : b.firstFrame + index = max x.start x.buddy.start) :
    (b.retagged index .tail).Layout chains live {x.parent} := by
  have lower : x.parent.start = min x.start x.buddy.start := rfl
  -- a block that starts with the upper half would meet it
  have upperUsed : ∀ y : Block, y ∈ listedBlocks b.firstFrame chains ∨ y ∈ live →
      y.start ≠ b.firstFrame + index := by
    intro y member
    rw [upper]
    rcases le_total x.start x.buddy.start with le | le
    · rw [max_eq_right le]
      exact (layout.partition.start_ne (.inr rfl) member).symm
    · rw [max_eq_left le]
      exact (layout.partition.start_ne (.inl rfl) member).symm
  have outside : ∀ frame, (∀ y ∈ ({x.parent} : Set Block), y.start ≠ frame) →
      frame ≠ b.firstFrame + index → ∀ y ∈ ({x, x.buddy} : Set Block), y.start ≠ frame := by
    intro frame apart different
    have notLower := apart x.parent rfl
    rw [lower] at notLower
    rw [upper] at different
    rintro y (rfl | rfl) <;> omega
  refine ofPartition ((layout.partition.join_held small).retagged index .tail) layout.coalesced ?_ ?_
  · intro frame order apart
    rw [stateAt?_retagged bound]
    by_cases same : frame = b.firstFrame + index
    · have absent : (⟨frame, order⟩ : Block) ∉ listedBlocks b.firstFrame chains := fun member =>
        upperUsed _ (.inl member) same
      simpa [same] using same ▸ absent
    · rw [if_neg same]
      exact layout.free_iff frame order (outside frame apart same)
  · intro frame order apart
    rw [stateAt?_retagged bound]
    by_cases same : frame = b.firstFrame + index
    · have absent : (⟨frame, order⟩ : Block) ∉ live := fun member => upperUsed _ (.inr member) same
      simpa [same] using same ▸ absent
    · rw [if_neg same]
      exact layout.live_iff frame order (outside frame apart same)

theorem give_free (layout : b.Layout chains live (insert x held)) (fresh : x ∉ held)
    (start : x.start = b.firstFrame + index)
    (lone : x.order < Order.top → x.buddy ∉ listedBlocks b.firstFrame chains) :
    ∃ after, (b.retagged index (.free x.order)).push index x.order = .ok after ∧
      SameExtent b after ∧
      after.Layout (Function.update chains x.order (index :: chains x.order)) live held := by
  have inHand : x ∈ insert x held := .inl rfl
  have bound := layout.partition.index_lt (.inl inHand) start
  obtain ⟨after, pushed, whole, states, given⟩ := layout.partition.give_free fresh start
  have more : listedBlocks b.firstFrame (Function.update chains x.order (index :: chains x.order)) =
      insert x (listedBlocks b.firstFrame chains) := by
    rw [listedBlocks_insert fun page => List.mem_cons, ← start]
  have frame := whole.firstFrame
  have startState : ∀ frame', after.stateAt? frame' =
      if frame' = x.start then some (.free x.order) else b.stateAt? frame' := by
    intro frame'
    rw [states, stateAt?_retagged bound, start]
  have apart := fun y (member : y ∈ listedBlocks b.firstFrame chains ∨ y ∈ live) =>
    layout.partition.start_ne inHand member
  have elsewhere : ∀ frame', frame' ≠ x.start → (∀ y ∈ held, y.start ≠ frame') →
      ∀ y ∈ insert x held, y.start ≠ frame' := by
    intro frame' different apartFromHeld y inHand
    rcases Set.mem_insert_iff.mp inHand with rfl | inHand
    · exact Ne.symm different
    · exact apartFromHeld y inHand
  refine ⟨after, pushed, whole, ofPartition given ?_ ?_ ?_⟩
  · rw [frame, more]
    exact coalesced_insert (layout.tiled.natural x (.inl inHand)) layout.coalesced lone
  · intro frame' order' apartFromHeld
    rw [startState, frame, more]
    exact tagged_iff (fun _ _ same => BlockState.free.inj same) (fun y member => apart y (.inl member))
      fun different => layout.free_iff frame' order' (elsewhere frame' different apartFromHeld)
  · intro frame' order' apartFromHeld
    rw [startState]
    exact untagged_iff (by simp) (fun y member => apart y (.inr member))
      fun different => layout.live_iff frame' order' (elsewhere frame' different apartFromHeld)

theorem give_live (layout : b.Layout chains live {x}) (start : x.start = b.firstFrame + index) :
    (b.retagged index (.allocated x.order)).Layout chains (x :: live) ∅ := by
  have inHand : x ∈ ({x} : Set Block) := rfl
  have bound := layout.partition.index_lt (.inl inHand) start
  have extent := retagged_extent b index (.allocated x.order)
  have apart := fun y (member : y ∈ listedBlocks b.firstFrame chains ∨ y ∈ live) =>
    layout.partition.start_ne inHand member
  have elsewhere : ∀ frame, frame ≠ x.start → ∀ y ∈ ({x} : Set Block), y.start ≠ frame := by
    intro frame different y same
    subst same
    exact Ne.symm different
  refine ofPartition (layout.partition.give_live.retagged _ _) layout.coalesced ?_ ?_
  · intro frame order _
    rw [stateAt?_retagged bound, ← start, extent.firstFrame]
    exact untagged_iff (by simp) (fun y member => apart y (.inl member))
      fun different => layout.free_iff frame order (elsewhere frame different)
  · intro frame order _
    rw [stateAt?_retagged bound, ← start, List.mem_cons]
    exact tagged_iff (s := {y | y ∈ live}) (fun _ _ same => BlockState.allocated.inj same)
      (fun y member => apart y (.inr member))
      fun different => layout.live_iff frame order (elsewhere frame different)

theorem withFreePages (layout : b.Layout chains live held) (count : Nat) :
    Layout { b with freePages := count } chains live held :=
  ofPartition (layout.partition.withFreePages count) layout.coalesced layout.free_iff layout.live_iff

/-- A buddy that is not to be merged with is not on its list: the records would say it was. -/
theorem reading : Reading Layout where
  partition layout := layout.partition
  hold_free layout member extent states listed := layout.hold_free member extent states listed
  hold_live layout member := layout.hold_live member
  cut_held layout := layout.cut_held
  join_held layout small bound upper := layout.join_held small bound upper
  give_free layout fresh start lone := by
    refine layout.give_free fresh start fun less free => lone less free ?_
    exact (layout.free_iff _ _ fun y inHand => layout.partition.start_ne inHand (.inl free)).mpr free
  give_live layout start := layout.give_live start
  withFreePages count layout := layout.withFreePages count

theorem perm {left : List Block} (layout : b.Layout chains live held) (same : live.Perm left) :
    b.Layout chains left held where
  placed := layout.placed
  listed := layout.listed
  tiled := by simpa only [same.mem_iff] using layout.tiled
  coalesced := layout.coalesced
  free_iff := layout.free_iff
  live_iff frame order elsewhere := by rw [← same.mem_iff, layout.live_iff frame order elsewhere]
  apartFromHeld x inHand := by
    rw [← same.mem_iff]
    exact layout.apartFromHeld x inHand
  distinct := same.nodup layout.distinct

end Layout

theorem Settled.perm {left : List Block} (settled : b.Settled live) (same : live.Perm left) :
    b.Settled left := by
  obtain ⟨⟨chains, layout⟩, accounted⟩ := settled
  refine ⟨⟨chains, layout.perm same⟩, ?_⟩
  rw [← (same.map Block.pages).sum_nat]
  exact accounted

theorem settled_iff : b.Settled live ↔ b.Rested Layout live :=
  ⟨fun settled => ⟨settled.layout, settled.accounted⟩, fun rested => ⟨rested.blocks, rested.accounted⟩⟩

end ZonedMemory.Buddy
