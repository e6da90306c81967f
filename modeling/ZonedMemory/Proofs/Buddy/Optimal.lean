import ZonedMemory.Proofs.Buddy.Run

namespace ZonedMemory.Buddy

/-!
What setting up comes to. Blocks without buddies are as few as blocks can be that hold the same pages,
and since the range is covered from its start, every list names its blocks from the lowest up.
-/

/-- The blocks that the records show as free. -/
def freeSet (b : Buddy) : Set Block := {x | b.blockState? x.addr = .ok (some (.free x.order))}

variable {b : Buddy} {chains : Nat → List Nat} {range : Range} {records : Nat} {x : Block}

theorem Layout.freeSet_eq {live : List Block} (layout : b.Layout chains live ∅) :
    b.freeSet = listedBlocks b.firstFrame chains := by
  ext x
  change b.blockState? x.addr = .ok (some (.free x.order)) ↔ _
  rw [blockState?_eq layout.placed, x.addr_div, Except.ok.injEq, layout.state_free_iff]

theorem Listed.freeBlockCounts_eq (listed : b.Listed chains) :
    b.freeBlockCounts = (List.range Order.count).map fun order => (chains order).length := by
  refine List.ext_getElem (by simp [freeBlockCounts]) fun order bound _ => ?_
  have small : order < Order.count := by simpa [freeBlockCounts] using bound
  simpa [freeBlockCounts] using listed.counted order small

/-- There are as many free blocks as the lists count. -/
theorem Layout.encard_freeSet {live : List Block} (layout : b.Layout chains live ∅) :
    b.freeSet.encard = b.freeBlockCounts.sum := by
  have spelled : b.freeSet = (freeBlockList b.firstFrame chains).toFinset := by
    ext x
    rw [layout.freeSet_eq, List.coe_toFinset, Set.mem_ofPred_eq, mem_freeBlockList layout.listed]
  have length : (freeBlockList b.firstFrame chains).length = b.freeBlockCounts.sum := by
    simp only [freeBlockList, List.length_flatMap, List.length_map, layout.listed.freeBlockCounts_eq]
  rw [spelled, Set.encard_coe_eq_coe_finsetCard, List.toFinset_card_of_nodup (freeBlockList_nodup layout.listed),
    length]

/-- A new buddy's free blocks tile the whole pages of its range. No tiling has fewer blocks, and
every list names its own from the lowest address up. -/
theorem create_optimal (accepted : Accepted range records) :
    ∃ b, create range records = .ok b ∧
      Tiled range.firstFrame (range.firstFrame + range.wholePages) b.freeSet ∧
      b.freeSet.encard = b.freeBlockCounts.sum ∧
      (∀ blocks, Tiled range.firstFrame (range.firstFrame + range.wholePages) blocks →
        b.freeSet.encard ≤ blocks.encard) ∧
      ∀ order (bound : order < Order.count), ∃ chain : List Nat,
        b.Segment b.lists[order].head chain none ∧
        (∀ page, page ∈ chain ↔ ⟨range.firstFrame + page, order⟩ ∈ b.freeSet) ∧
        chain.Pairwise fun page later =>
          (range.firstFrame + page) * pageSize < (range.firstFrame + later) * pageSize := by
  obtain ⟨b, _, chains, created, covered, whole⟩ := create_covered accepted
  have layout := covered.layout b.pages.size
  obtain ⟨first, pages⟩ := covered.placed.frames whole
  have free := layout.freeSet_eq
  have tiled := covered.tiled
  refine ⟨_, created, ?_, layout.encard_freeSet, fun blocks other => ?_, fun order bound => ?_⟩
  · rw [free, ← first, ← pages]
    exact tiled
  · rw [← first, ← pages] at other
    rw [free]
    exact tiled.encard_le layout.coalesced other
  · refine ⟨chains order, layout.listed.linked order bound, fun page => ?_, ?_⟩
    · rw [free, ← first]
      simp [listedBlocks]
    · exact (covered.ordered order).imp fun less =>
        Nat.mul_lt_mul_of_pos_right (Nat.add_lt_add_left less _) pageSize_pos

theorem create_optimal_five :
    Accepted ⟨12288, 20480⟩ 5 ∧
      ∃ b, create ⟨12288, 20480⟩ 5 = .ok b ∧ b.freeBlockCounts.sum = 2 ∧
        ∀ blocks, Tiled 3 8 blocks → 2 ≤ blocks.encard := by
  obtain ⟨b, created, _, counted, fewest, _⟩ := create_optimal accepted_five
  have counts : ((create ⟨12288, 20480⟩ 5).toOption.map fun b => b.freeBlockCounts.sum) = some 2 := by
    decide +kernel
  obtain ⟨again, made, sum⟩ := Option.map_eq_some_iff.mp counts
  obtain rfl := Except.ok.inj ((toOption_eq_some.mp made).symm.trans created)
  refine ⟨accepted_five, again, created, sum, fun blocks tiled => ?_⟩
  have least := fewest blocks tiled
  rw [counted, sum] at least
  exact least

end ZonedMemory.Buddy
