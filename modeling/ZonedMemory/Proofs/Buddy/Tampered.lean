import ZonedMemory.Proofs.Buddy.Run

namespace ZonedMemory.Buddy

/-!
A buddy whose records lie. Whoever overwrites the tags of pages takes away all that the records say,
but neither the links nor the counts; the lists and the live blocks then still share out the range,
and a falsely tagged page is never taken for a free block, since no list has it.
-/

/-- The block is on the free list of its order. -/
def Lists (b : Buddy) (x : Block) : Prop :=
  ∃ (bound : x.order < Order.count) (chain : List Nat),
    b.Segment b.lists[x.order].head chain none ∧ ∃ index ∈ chain, x.start = b.firstFrame + index

namespace Session

/-- A free that succeeds is of a live block whose tag still says so. -/
def Permits (s : Session) : Call → Prop
  | .allocate _ _ => True
  | .free addr => ∀ pages after, (s.buddy.free addr).outcome = .ok (.ok pages, after) →
      ∃ x ∈ s.live, x.addr = addr ∧ s.buddy.blockState? addr = .ok (some (.allocated x.order))

/-- A session comes from another by calls it permits, while the tags of pages are overwritten at will. -/
inductive Scrambles (s : Session) : Session → Prop
  | start : Scrambles s s
  | overwrite {t : Session} (index : Nat) (state : BlockState) : Scrambles s t →
      Scrambles s ⟨t.buddy.retagged index state, t.live⟩
  | call {t next : Session} {call : Call} : Scrambles s t → t.Permits call →
      t.perform call = .ok next → Scrambles s next

/-- What the lists and the live blocks alone are good for. -/
structure Safe (s : Session) : Prop where
  /-- Every call answers, and the same to everyone who reads along. -/
  allocates : ∀ order align, ∃ answer, (s.buddy.allocate order align).outcome = .ok answer ∧
    ∀ threshold, ((s.buddy.allocate order align).read threshold).2 = .ok answer
  frees : ∀ addr, ∃ answer, (s.buddy.free addr).outcome = .ok answer ∧
    ∀ threshold, ((s.buddy.free addr).read threshold).2 = .ok answer
  refused : ∀ addr reason after, (s.buddy.free addr).outcome = .ok (.error reason, after) →
    after = s.buddy
  fits : ∀ x : Block, x ∈ s.live ∨ s.buddy.Lists x → x.order ≤ 10 ∧ 2 ^ x.order ∣ x.start ∧
    s.buddy.firstFrame ≤ x.start ∧ x.start + 2 ^ x.order ≤ s.buddy.firstFrame + s.buddy.pages.size
  live_apart : s.live.Pairwise Block.Apart
  listed : ∀ order (bound : order < Order.count), ∃ chain : List Nat,
    s.buddy.Segment s.buddy.lists[order].head chain none ∧ chain.Nodup ∧
      s.buddy.lists[order].count = chain.length
  listed_apart : ∀ x y, s.buddy.Lists x → s.buddy.Lists y → x ≠ y → x.Apart y
  listed_live_apart : ∀ x y, s.buddy.Lists x → y ∈ s.live → x.Apart y
  accounted : s.buddy.freePages + (s.live.map fun x => 2 ^ x.order).sum = s.buddy.pages.size
  /-- Freeing a block adds its own frames to those on the lists, and no others. -/
  freed : ∀ x ∈ s.live, s.buddy.blockState? x.addr = .ok (some (.allocated x.order)) →
    ∃ after, (s.buddy.free x.addr).outcome = .ok (.ok (2 ^ x.order), after) ∧
      ∀ frame, (∃ y, after.Lists y ∧ y.Holds frame) ↔
        (∃ y, s.buddy.Lists y ∧ y.Holds frame) ∨ x.Holds frame

end Session

variable {b after : Buddy} {s t : Session} {chains : Nat → List Nat} {live : List Block} {x : Block}
  {range : Range} {records addr : Nat}

theorem Listed.lists_iff (listed : b.Listed chains) :
    b.Lists x ↔ x ∈ listedBlocks b.firstFrame chains := by
  constructor
  · intro found
    obtain ⟨bound, chain, linked, index, member, start⟩ := found
    obtain rfl := linked.unique (listed.linked x.order bound)
    exact ⟨index, member, start⟩
  · intro listed
    obtain ⟨index, member, start⟩ := listed
    have bound := listed.order_lt member
    exact ⟨bound, chains x.order, listed.linked x.order bound, index, member, start⟩

theorem Partition.lists_frame_iff {frame : Nat} (parts : b.Partition chains live ∅) :
    (∃ y, b.Lists y ∧ y.Holds frame) ↔
      b.firstFrame ≤ frame ∧ frame < b.firstFrame + b.pages.size ∧ ∀ y ∈ live, ¬ y.Holds frame := by
  rw [← parts.free_frame_iff]
  simp only [parts.listed.lists_iff]

namespace Rested

theorem retagged (rested : b.Rested Partition live) (index : Nat) (state : BlockState) :
    (b.retagged index state).Rested Partition live := by
  obtain ⟨⟨chains, parts⟩, accounted⟩ := rested
  refine ⟨⟨chains, parts.retagged index state⟩, ?_⟩
  rw [(retagged_extent ..).size]
  exact accounted

/-- Every free answers: what a record says is checked against the range before it is believed. -/
theorem free_cases (rested : b.Rested Partition live) (addr : Nat) :
    (∃ reason, (b.free addr).Answers (.error reason, b)) ∨
      ∃ pages after, (b.free addr).Answers (.ok pages, after) := by
  obtain ⟨⟨chains, parts⟩, accounted⟩ := rested
  by_cases block : ∃ index order, b.Freeable addr index order
  · obtain ⟨index, order, freeable⟩ := block
    have inside := freeable.inside
    have positive := Nat.two_pow_pos order
    have few := parts.placed.frames_lt
    have bound : index < b.pages.size := by omega
    obtain ⟨released, answers, extent⟩ := release_answers parts.placed parts.listed bound
      (Nat.le_of_lt_succ freeable.small)
    have room : released.freePages + 2 ^ order < 2 ^ 64 := by
      rw [extent.freePages]
      omega
    exact .inr ⟨_, _, freeable.free parts.placed answers room⟩
  · push Not at block
    exact .inl (free_unless parts.placed block)

theorem free_refused (rested : b.Rested Partition live) {reason : FreeError}
    (refused : (b.free addr).outcome = .ok (.error reason, after)) : after = b := by
  rcases rested.free_cases addr with ⟨_, answers⟩ | ⟨_, _, answers⟩
  · rw [answers.outcome] at refused
    simp only [Except.ok.injEq, Prod.mk.injEq] at refused
    exact refused.2.symm
  · rw [answers.outcome] at refused
    simp at refused

theorem free_tagged (rested : b.Rested Partition live) (member : x ∈ live)
    (state : b.blockState? x.addr = .ok (some (.allocated x.order))) :
    ∃ after, (b.free x.addr).Answers (.ok x.pages, after) ∧
      after.Rested Partition (live.erase x) ∧ after.range = b.range := by
  obtain ⟨chains, parts⟩ := rested.blocks
  rw [blockState?_eq parts.placed, x.addr_div, Except.ok.injEq] at state
  exact Partition.reading.free rested member state

end Rested

namespace Session

theorem Permits.free (permits : s.Permits (.free addr)) (rested : s.buddy.Rested Partition s.live) :
    (∃ reason, (s.buddy.free addr).Answers (.error reason, s.buddy)) ∨
      ∃ x ∈ s.live, x.addr = addr ∧
        s.buddy.blockState? x.addr = .ok (some (.allocated x.order)) := by
  rcases rested.free_cases addr with refused | ⟨pages, after, answers⟩
  · exact .inl refused
  · obtain ⟨x, member, rfl, state⟩ := permits pages after answers.outcome
    exact .inr ⟨x, member, rfl, state⟩

theorem perform_rested {call : Call} (rested : s.buddy.Rested Partition s.live)
    (permits : s.Permits call) :
    ∃ next, s.perform call = .ok next ∧ next.buddy.Rested Partition next.live ∧
      next.buddy.range = s.buddy.range := by
  obtain ⟨chains, parts⟩ := rested.blocks
  cases call with
  | allocate order align =>
      rcases Partition.reading.allocate rested order align with
        ⟨x, after, answers, sameOrder, _, later, range⟩ | ⟨reason, answers⟩
      · have block : (⟨Frame.ofAddress x.addr, order⟩ : Block) = x := by
          rw [← sameOrder, Frame.ofAddress, x.addr_div]
        exact ⟨⟨after, x :: s.live⟩,
          by simp only [perform, answers.outcome, ok_bind, block, pure_eq_ok], later, range⟩
      · exact ⟨s, by simp only [perform, answers.outcome, ok_bind, pure_eq_ok], rested, rfl⟩
  | free addr =>
      rcases permits.free rested with ⟨reason, answers⟩ | ⟨x, member, rfl, state⟩
      · exact ⟨s, by simp only [perform, answers.outcome, ok_bind, pure_eq_ok], rested, rfl⟩
      · obtain ⟨after, answers, later, range⟩ := rested.free_tagged member state
        have left := parts.filter_addr member
        refine ⟨⟨after, s.live.erase x⟩, ?_, later, range⟩
        simp only [perform, answers.outcome, ok_bind, left, pure_eq_ok]

theorem Scrambles.rested (scrambles : s.Scrambles t) (rested : s.buddy.Rested Partition s.live) :
    t.buddy.Rested Partition t.live ∧ t.buddy.range = s.buddy.range := by
  induction scrambles with
  | start => exact ⟨rested, rfl⟩
  | overwrite index state _ ih => exact ⟨ih.1.retagged index state, ih.2⟩
  | call _ permits performed ih =>
      obtain ⟨next, again, later, range⟩ := perform_rested ih.1 permits
      obtain rfl := Except.ok.inj (performed.symm.trans again)
      exact ⟨later, range.trans ih.2⟩

end Session

theorem Rested.safe (rested : s.buddy.Rested Partition s.live) : s.Safe := by
  obtain ⟨chains, parts⟩ := rested.blocks
  refine ⟨?_, ?_, fun _ _ _ => rested.free_refused, ?_, ?_, ?_, ?_, ?_, rested.accounted, ?_⟩
  · intro order align
    rcases Partition.reading.allocate rested order align with ⟨_, _, answers, _⟩ | ⟨_, answers⟩
    · exact ⟨_, answers.outcome, answers.read⟩
    · exact ⟨_, answers.outcome, answers.read⟩
  · intro addr
    rcases rested.free_cases addr with ⟨_, answers⟩ | ⟨_, _, answers⟩
    · exact ⟨_, answers.outcome, answers.read⟩
    · exact ⟨_, answers.outcome, answers.read⟩
  · intro x some
    have member : x ∈ ∅ ∪ (listedBlocks s.buddy.firstFrame chains ∪ {x | x ∈ s.live}) :=
      .inr (some.symm.imp parts.listed.lists_iff.mp id)
    exact ⟨parts.tiled.small x member, parts.tiled.natural x member, parts.tiled.inside x member⟩
  · refine parts.distinct.imp_of_mem fun {x y} left right different => ?_
    exact parts.tiled.apart x (.inr (.inr left)) y (.inr (.inr right)) different
  · intro order bound
    have linked := parts.listed.linked order bound
    exact ⟨chains order, linked, linked.nodup, parts.listed.counted order bound⟩
  · intro x y left right
    exact parts.tiled.apart x (.inr (.inl (parts.listed.lists_iff.mp left))) y
      (.inr (.inl (parts.listed.lists_iff.mp right)))
  · intro x y free used
    have member := parts.listed.lists_iff.mp free
    refine parts.tiled.apart x (.inr (.inl member)) y (.inr (.inr used)) ?_
    intro same
    subst same
    exact parts.separate x member used
  · intro x member state
    obtain ⟨after, answers, later, range⟩ := rested.free_tagged member state
    refine ⟨after, answers.outcome, fun frame => ?_⟩
    obtain ⟨left, rest⟩ := later.blocks
    have frames := parts.placed.same_frames rest.placed range
    have inside (holds : x.Holds frame) := parts.tiled.holds_inside (.inr (.inr member)) holds
    have alone : ∀ y ∈ s.live, y ≠ x → x.Holds frame → ¬ y.Holds frame := by
      intro y used different holds again
      exact different (parts.tiled.unique (.inr (.inr used)) (.inr (.inr member)) again holds)
    rw [rest.lists_frame_iff, parts.lists_frame_iff, frames.1, frames.2]
    simp only [parts.distinct.mem_erase_iff]
    by_cases holds : x.Holds frame
    · have := inside holds
      simp only [holds, or_true, iff_true]
      exact ⟨this.1, this.2, fun y used => alone y used.2 used.1 holds⟩
    · simp only [holds, or_false]
      refine and_congr_right fun _ => and_congr_right fun _ => ⟨fun unused y used => ?_, fun unused y used =>
        unused y used.2⟩
      by_cases same : y = x
      · rw [same]
        exact holds
      · exact unused y ⟨same, used⟩

/-- Whatever the tags of pages are overwritten with, as long as only live blocks are freed on the word
of their own tag, the buddy answers every call and neither hands out nor lists a page twice. -/
theorem scrambles_safe (accepted : Accepted range records) :
    ∃ b, create range records = .ok b ∧ ∀ s, Session.Scrambles ⟨b, []⟩ s →
      s.buddy.firstFrame = range.firstFrame ∧ s.buddy.pages.size = range.wholePages ∧ s.Safe := by
  obtain ⟨b, created, settled, whole⟩ := create_settled accepted
  obtain ⟨chains, layout⟩ := settled.layout
  refine ⟨b, created, fun s scrambles => ?_⟩
  obtain ⟨rested, range⟩ := scrambles.rested ⟨⟨chains, layout.partition⟩, settled.accounted⟩
  obtain ⟨later, parts⟩ := rested.blocks
  have frames := parts.placed.frames (range.trans whole)
  exact ⟨frames.1, frames.2, rested.safe⟩

theorem scrambles_safe_five :
    Accepted ⟨12288, 20480⟩ 5 ∧
      ∃ b s, create ⟨12288, 20480⟩ 5 = .ok b ∧ Session.Scrambles ⟨b, []⟩ s ∧ s.live = [⟨3, 0⟩] ∧
        s.buddy.blockState? 20480 = .ok (some (.free 0)) ∧ s.Safe := by
  obtain ⟨b, created, safe⟩ := scrambles_safe accepted_five
  -- the third page, inside a free block of four, is tagged as a free block of its own
  have computed : ((create ⟨12288, 20480⟩ 5).toOption.bind fun b =>
      (Session.perform ⟨b.retagged 2 (.free 0), []⟩ (.allocate 0 4096)).toOption.map fun s =>
        decide (s.live = [⟨3, 0⟩] ∧ (s.buddy.blockState? 20480).toOption = some (some (.free 0)))) =
      some true := by
    decide +kernel
  rw [created] at computed
  obtain ⟨s, performed, holds⟩ := Option.map_eq_some_iff.mp computed
  obtain ⟨live, state⟩ := of_decide_eq_true holds
  have permits : Session.Permits ⟨b.retagged 2 (.free 0), []⟩ (.allocate 0 4096) := trivial
  have scrambles : Session.Scrambles ⟨b, []⟩ s :=
    .call (.overwrite 2 (.free 0) .start) permits (toOption_eq_some.mp performed)
  exact ⟨accepted_five, b, s, created, scrambles, live, toOption_eq_some.mp state,
    (safe s scrambles).2.2⟩

end ZonedMemory.Buddy
