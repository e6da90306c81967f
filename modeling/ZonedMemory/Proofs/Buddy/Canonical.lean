import ZonedMemory.Proofs.Buddy.Run

namespace ZonedMemory.Buddy

/-!
The state of a buddy is a function of its range and its live blocks. A coalesced tiling around given
live blocks is unique, so the free blocks, and with them every record and every count, come out the
same whatever calls led there.
-/

variable {b c : Buddy} {chains others : Nat → List Nat} {live used : List Block} {x : Block}
  {range : Range} {records : Nat}

namespace Layout

theorem free_iff_maximal (layout : b.Layout chains live ∅) :
    x ∈ listedBlocks b.firstFrame chains ↔
      Spare b.firstFrame (b.firstFrame + b.pages.size) {y | y ∈ live} x ∧
        ∀ y, Spare b.firstFrame (b.firstFrame + b.pages.size) {y | y ∈ live} y → x.Within y → x = y := by
  have tiled := layout.tiled
  rw [Set.empty_union] at tiled
  exact tiled.free_iff_maximal layout.coalesced fun y member => layout.free_not_live member

/-- A run of some order is left over exactly when a list from that order on has a block. -/
theorem spare_iff {order : Nat} (layout : b.Layout chains live ∅) (small : order ≤ Order.top) :
    (∃ x : Block, x.order = order ∧ Spare b.firstFrame (b.firstFrame + b.pages.size) {y | y ∈ live} x) ↔
      ∃ large, order ≤ large ∧ chains large ≠ [] := by
  constructor
  · intro unused
    obtain ⟨x, rfl, spare⟩ := unused
    have tiled := layout.tiled
    rw [Set.empty_union] at tiled
    obtain ⟨y, ⟨index, member, _⟩, within⟩ := tiled.run_within_free layout.coalesced spare
    exact ⟨y.order, within.order_le, List.ne_nil_of_mem member⟩
  · intro room
    obtain ⟨large, least, some⟩ := room
    obtain ⟨index, member⟩ := List.exists_mem_of_ne_nil _ some
    have free : (⟨b.firstFrame + index, large⟩ : Block) ∈ listedBlocks b.firstFrame chains :=
      ⟨index, member, rfl⟩
    have spare := (layout.free_iff_maximal.mp free).1
    have shorter : 2 ^ order ≤ 2 ^ large := Nat.pow_le_pow_right (by decide) least
    have within : Block.Within ⟨b.firstFrame + index, order⟩ ⟨b.firstFrame + index, large⟩ :=
      ⟨Nat.le_refl _, Nat.add_le_add_left shorter _⟩
    exact ⟨⟨b.firstFrame + index, order⟩, rfl, (pow_dvd_pow 2 least).trans spare.natural, small,
      ⟨spare.inside.1, within.2.trans spare.inside.2⟩, fun y used => (spare.unused y used).of_within within⟩

theorem listedBlocks_eq (layout : b.Layout chains live ∅) (other : c.Layout others used ∅)
    (frame : c.firstFrame = b.firstFrame) (size : c.pages.size = b.pages.size)
    (same : ∀ x, x ∈ live ↔ x ∈ used) :
    listedBlocks c.firstFrame others = listedBlocks b.firstFrame chains := by
  ext x
  have sets : {y | y ∈ used} = {y | y ∈ live} := by
    ext y
    exact (same y).symm
  rw [layout.free_iff_maximal, other.free_iff_maximal, frame, size, sets]

theorem stateAt?_eq (layout : b.Layout chains live ∅) (other : c.Layout others used ∅)
    (frame : c.firstFrame = b.firstFrame) (size : c.pages.size = b.pages.size)
    (same : ∀ x, x ∈ live ↔ x ∈ used) : c.stateAt? = b.stateAt? := by
  have blocks := layout.listedBlocks_eq other frame size same
  funext frame'
  have free : ∀ order, c.stateAt? frame' = some (.free order) ↔ b.stateAt? frame' = some (.free order) := by
    intro order
    rw [layout.free_iff frame' order (by simp), other.free_iff frame' order (by simp), blocks]
  have live : ∀ order,
      c.stateAt? frame' = some (.allocated order) ↔ b.stateAt? frame' = some (.allocated order) := by
    intro order
    rw [layout.live_iff frame' order (by simp), other.live_iff frame' order (by simp), same]
  by_cases inside : b.firstFrame ≤ frame' ∧ frame' < b.firstFrame + b.pages.size
  · obtain ⟨state, known⟩ := exists_stateAt? inside
    obtain ⟨otherState, otherKnown⟩ := exists_stateAt? (b := c) (by rwa [frame, size])
    cases state with
    | free order => rw [known, (free order).mpr known]
    | allocated order => rw [known, (live order).mpr known]
    | tail =>
        cases otherState with
        | free order => cases known.symm.trans ((free order).mp otherKnown)
        | allocated order => cases known.symm.trans ((live order).mp otherKnown)
        | tail => rw [known, otherKnown]
  · rw [stateAt?_eq_none inside, stateAt?_eq_none (by rwa [frame, size])]

theorem chains_perm (layout : b.Layout chains live ∅) (other : c.Layout others used ∅)
    (frame : c.firstFrame = b.firstFrame) (size : c.pages.size = b.pages.size)
    (same : ∀ x, x ∈ live ↔ x ∈ used) (order : Nat) : (others order).Perm (chains order) := by
  have blocks := layout.listedBlocks_eq other frame size same
  refine (List.perm_ext_iff_of_nodup (other.listed.nodup order) (layout.listed.nodup order)).mpr ?_
  intro index
  have equal := congrArg ((⟨b.firstFrame + index, order⟩ : Block) ∈ ·) blocks
  simpa [listedBlocks, frame] using equal

end Layout

theorem freeBlocks_congr (same : ∀ order, c.freeBlocks order = b.freeBlocks order) :
    c.freeBlockCounts = b.freeBlockCounts ∧ c.largestFreeOrder? = b.largestFreeOrder? := by
  constructor
  · refine List.ext_getElem (by simp [freeBlockCounts]) fun order bound _ => ?_
    have small : order < Order.count := by simpa [freeBlockCounts] using bound
    have equal := same order
    simp only [freeBlocks, dif_pos small] at equal
    simpa [freeBlockCounts] using equal
  · simp only [largestFreeOrder?, same]

/-- Two buddies of one range with the same live blocks agree in everything they can be asked. -/
theorem Settled.agree (settled : b.Settled live) (other : c.Settled used) (range : c.range = b.range)
    (same : ∀ x, x ∈ live ↔ x ∈ used) :
    (∀ addr, c.blockState? addr = b.blockState? addr) ∧ c.freeBlockCounts = b.freeBlockCounts ∧
      c.largestFreeOrder? = b.largestFreeOrder? ∧ c.freePages = b.freePages := by
  obtain ⟨frame, size⟩ := settled.same_frames other range
  obtain ⟨⟨chains, layout⟩, accounted⟩ := settled
  obtain ⟨⟨others, otherLayout⟩, otherAccounted⟩ := other
  have states := layout.stateAt?_eq otherLayout frame size same
  have counts := freeBlocks_congr (b := b) (c := c) fun order => by
    rw [freeBlocks_eq layout.listed, freeBlocks_eq otherLayout.listed,
      (layout.chains_perm otherLayout frame size same order).length_eq]
  refine ⟨fun addr => ?_, counts.1, counts.2, ?_⟩
  · rw [blockState?_eq layout.placed, blockState?_eq otherLayout.placed, states]
  · have sums := ((List.perm_ext_iff_of_nodup layout.distinct otherLayout.distinct).mpr same).map
      Block.pages |>.sum_eq
    omega

theorem Settled.free_iff_maximal (settled : b.Settled live) :
    b.stateAt? x.start = some (.free x.order) ↔
      Spare b.firstFrame (b.firstFrame + b.pages.size) {y | y ∈ live} x ∧
        ∀ y, Spare b.firstFrame (b.firstFrame + b.pages.size) {y | y ∈ live} y → x.Within y → x = y := by
  obtain ⟨⟨chains, layout⟩, _⟩ := settled
  rw [layout.state_free_iff, layout.free_iff_maximal]

/-- What a buddy says of its pages, its free blocks and their number depends on the live blocks
only, not on the calls that led there: the free blocks are the largest runs the live ones leave
over. With nothing live every page is as it was made. -/
theorem runs_agree (accepted : Accepted range records) (left right : List Call) :
    ∃ b s t, create range records = .ok b ∧ Session.run ⟨b, []⟩ left = .ok s ∧
      Session.run ⟨b, []⟩ right = .ok t ∧
      ((∀ x, x ∈ s.live ↔ x ∈ t.live) →
        (∀ addr, s.buddy.blockState? addr = t.buddy.blockState? addr) ∧
        s.buddy.freeBlockCounts = t.buddy.freeBlockCounts ∧
        s.buddy.largestFreeOrder? = t.buddy.largestFreeOrder? ∧
        s.buddy.freePages = t.buddy.freePages) ∧
      (∀ x : Block, s.buddy.blockState? x.addr = .ok (some (.free x.order)) ↔
        Spare range.firstFrame (range.firstFrame + range.wholePages) {y | y ∈ s.live} x ∧
          ∀ y, Spare range.firstFrame (range.firstFrame + range.wholePages) {y | y ∈ s.live} y →
            x.Within y → x = y) ∧
      (s.live = [] → ∀ addr, s.buddy.blockState? addr = b.blockState? addr) := by
  obtain ⟨b, created, fresh, whole⟩ := create_settled accepted
  obtain ⟨s, ranLeft, leftSettled, leftRange⟩ := Session.run_settled (s := ⟨b, []⟩) left fresh
  obtain ⟨t, ranRight, rightSettled, rightRange⟩ := Session.run_settled (s := ⟨b, []⟩) right fresh
  refine ⟨b, s, t, created, ranLeft, ranRight, fun same => ?_, fun x => ?_, fun empty => ?_⟩
  · exact rightSettled.agree leftSettled (leftRange.trans rightRange.symm) fun x => (same x).symm
  · obtain ⟨⟨chains, layout⟩, _⟩ := id leftSettled
    obtain ⟨first, pages⟩ := leftSettled.frames (leftRange.trans whole)
    rw [blockState?_eq layout.placed, x.addr_div, Except.ok.injEq, leftSettled.free_iff_maximal, first,
      pages]
  · exact (fresh.agree leftSettled leftRange (by simp [empty])).1

/-- A block split off and given back leaves nothing behind. -/
theorem runs_agree_five :
    Accepted ⟨12288, 20480⟩ 5 ∧
      ∃ b s t, create ⟨12288, 20480⟩ 5 = .ok b ∧
        Session.run ⟨b, []⟩ [.allocate 1 0, .free 16384] = .ok s ∧ Session.run ⟨b, []⟩ [] = .ok t ∧
        s.live = [] ∧ t.live = [] ∧
        (∀ addr, s.buddy.blockState? addr = t.buddy.blockState? addr) ∧
        s.buddy.freeBlockCounts = t.buddy.freeBlockCounts ∧
        s.buddy.largestFreeOrder? = t.buddy.largestFreeOrder? ∧ s.buddy.freePages = t.buddy.freePages ∧
        (∀ addr, s.buddy.blockState? addr = b.blockState? addr) ∧
        s.buddy.blockState? 12288 = .ok (some (.free 0)) ∧
        s.buddy.blockState? 16384 = .ok (some (.free 2)) ∧
        s.buddy.freeBlockCounts = [1, 0, 1, 0, 0, 0, 0, 0, 0, 0, 0] ∧
        s.buddy.largestFreeOrder? = some 2 ∧ s.buddy.freePages = 5 := by
  obtain ⟨b, s, t, created, left, right, agree, _, fresh⟩ :=
    runs_agree accepted_five [.allocate 1 0, .free 16384] []
  have computed : ((create ⟨12288, 20480⟩ 5).toOption.bind fun b =>
      (Session.run ⟨b, []⟩ [.allocate 1 0, .free 16384]).toOption.map fun s =>
        decide (s.live = [] ∧ (s.buddy.blockState? 12288).toOption = some (some (.free 0)) ∧
          (s.buddy.blockState? 16384).toOption = some (some (.free 2)) ∧
          s.buddy.freeBlockCounts = [1, 0, 1, 0, 0, 0, 0, 0, 0, 0, 0] ∧
          s.buddy.largestFreeOrder? = some 2 ∧ s.buddy.freePages = 5)) = some true := by
    decide +kernel
  rw [created] at computed
  obtain ⟨again, ran, holds⟩ := Option.map_eq_some_iff.mp computed
  obtain rfl := Except.ok.inj ((toOption_eq_some.mp ran).symm.trans left)
  obtain ⟨none, single, quadruple, counts, largest, pages⟩ := of_decide_eq_true holds
  obtain rfl := Except.ok.inj right
  obtain ⟨states, sameCounts, sameLargest, samePages⟩ := agree (by simp [none])
  exact ⟨accepted_five, b, again, _, created, left, right, none, rfl, states, sameCounts, sameLargest,
    samePages, fresh none, toOption_eq_some.mp single, toOption_eq_some.mp quadruple, counts, largest,
    pages⟩

end ZonedMemory.Buddy
