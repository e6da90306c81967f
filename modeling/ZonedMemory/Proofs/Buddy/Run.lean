import ZonedMemory.Proofs.Buddy.Allocate
import ZonedMemory.Proofs.Buddy.Seed

namespace ZonedMemory.Buddy

/-!
Runs of a buddy. A session is a buddy together with the blocks that its clients have and have not
given back; each call returns and keeps the two in agreement.
-/

inductive Call where
  | allocate (order align : Nat)
  | free (addr : Nat)

structure Session where
  buddy : Buddy
  /-- The blocks handed out and not given back, the latest first. -/
  live : List Block

namespace Session

def perform (s : Session) : Call → Except Fault Session
  | .allocate order align => do
      let (answer, buddy) ← (s.buddy.allocate order align).outcome
      match answer with
      | .ok addr => return ⟨buddy, ⟨Frame.ofAddress addr, order⟩ :: s.live⟩
      | .error _ => return ⟨buddy, s.live⟩
  | .free addr => do
      let (answer, buddy) ← (s.buddy.free addr).outcome
      match answer with
      | .ok _ => return ⟨buddy, s.live.filter fun x => x.addr ≠ addr⟩
      | .error _ => return ⟨buddy, s.live⟩

def run (s : Session) (calls : List Call) : Except Fault Session := calls.foldlM perform s

end Session

/-- What holds of a buddy between two operations, by the records and the lists alone. -/
structure Consistent (b : Buddy) : Prop where
  /-- Every frame of the range lies in one block. -/
  tiled : ∀ frame, b.firstFrame ≤ frame → frame < b.firstFrame + b.pages.size →
    ∃! x : Block, (b.stateAt? x.start = some (.free x.order) ∨
      b.stateAt? x.start = some (.allocated x.order)) ∧ x.Holds frame
  fits : ∀ x : Block, (b.stateAt? x.start = some (.free x.order) ∨
      b.stateAt? x.start = some (.allocated x.order)) →
    x.order ≤ 10 ∧ 2 ^ x.order ∣ x.start ∧ b.firstFrame ≤ x.start ∧
      x.start + 2 ^ x.order ≤ b.firstFrame + b.pages.size
  /-- A page where no block starts is a tail. -/
  tails : ∀ index < b.pages.size, (∀ order, b.stateAt? (b.firstFrame + index) ≠ some (.free order) ∧
    b.stateAt? (b.firstFrame + index) ≠ some (.allocated order)) →
    b.stateAt? (b.firstFrame + index) = some .tail
  listed : ∀ order (bound : order < Order.count), ∃ chain : List Nat,
    b.Segment b.lists[order].head chain none ∧ chain.Nodup ∧ b.lists[order].count = chain.length ∧
      ∀ index, index ∈ chain ↔ b.stateAt? (b.firstFrame + index) = some (.free order)
  counted : ∃ free : List Block, free.Nodup ∧
    (∀ x : Block, x ∈ free ↔ b.stateAt? x.start = some (.free x.order)) ∧
      b.freePages = (free.map fun x => 2 ^ x.order).sum
  coalesced : ∀ frame order, order < 10 → b.stateAt? frame = some (.free order) →
    b.stateAt? (frame ^^^ 2 ^ order) ≠ some (.free order)

variable {b : Buddy} {s : Session} {chains : Nat → List Nat} {live : List Block} {x y : Block}
  {range : Range} {records first : Nat}

def freeBlockList (first : Nat) (chains : Nat → List Nat) : List Block :=
  (List.range Order.count).flatMap fun order => (chains order).map fun index => ⟨first + index, order⟩

theorem mem_freeBlockList (listed : b.Listed chains) :
    x ∈ freeBlockList first chains ↔ x ∈ listedBlocks first chains := by
  simp only [freeBlockList, List.mem_flatMap, List.mem_range, List.mem_map]
  constructor
  · rintro ⟨order, _, index, member, rfl⟩
    exact ⟨index, member, rfl⟩
  · rintro ⟨index, member, start⟩
    exact ⟨x.order, listed.order_lt member, index, member, by rw [← start]⟩

theorem freeBlockList_nodup (listed : b.Listed chains) : (freeBlockList first chains).Nodup := by
  refine List.nodup_flatMap.mpr ⟨fun order _ => ?_, ?_⟩
  · refine (listed.nodup order).map fun i j same => ?_
    simpa using congrArg Block.start same
  · refine List.nodup_range.imp fun {i j} different x left right => ?_
    obtain ⟨_, _, rfl⟩ := List.mem_map.mp left
    obtain ⟨_, _, same⟩ := List.mem_map.mp right
    exact different (congrArg Block.order same).symm

namespace Partition

theorem sum_free_add_live (parts : b.Partition chains live ∅) :
    ((freeBlockList b.firstFrame chains).map Block.pages).sum + (live.map Block.pages).sum =
      b.pages.size := by
  have every : {x | x ∈ freeBlockList b.firstFrame chains ++ live} =
      ∅ ∪ (listedBlocks b.firstFrame chains ∪ {x | x ∈ live}) := by
    ext x
    simp [mem_freeBlockList parts.listed]
  have distinct : (freeBlockList b.firstFrame chains ++ live).Nodup := by
    refine List.nodup_append.mpr ⟨freeBlockList_nodup parts.listed, parts.distinct, ?_⟩
    rintro x free y used rfl
    exact parts.separate x ((mem_freeBlockList parts.listed).mp free) used
  have total := Tiled.sum_pages (every ▸ parts.tiled) distinct
  rwa [List.map_append, List.sum_append, Nat.add_sub_cancel_left] at total

theorem addr_inj (parts : b.Partition chains live ∅) (left : x ∈ live) (right : y ∈ live)
    (same : x.addr = y.addr) : x = y := by
  have starts : x.start = y.start := Nat.eq_of_mul_eq_mul_right pageSize_pos same
  exact parts.tiled.unique (.inr (.inr left)) (.inr (.inr right)) x.holds_start
    (starts ▸ y.holds_start)

theorem filter_addr (parts : b.Partition chains live ∅) (member : x ∈ live) :
    (live.filter fun y => y.addr ≠ x.addr) = live.erase x := by
  rw [parts.distinct.erase_eq_filter]
  refine List.filter_congr fun y other => ?_
  have same : y.addr = x.addr ↔ y = x := ⟨parts.addr_inj other member, congrArg Block.addr⟩
  simp [same, bne, Bool.beq_eq_decide_eq]

end Partition

namespace Layout

theorem state_free_iff (layout : b.Layout chains live ∅) :
    b.stateAt? x.start = some (.free x.order) ↔ x ∈ listedBlocks b.firstFrame chains :=
  layout.free_iff x.start x.order (by simp)

theorem state_live_iff (layout : b.Layout chains live ∅) :
    b.stateAt? x.start = some (.allocated x.order) ↔ x ∈ live :=
  layout.live_iff x.start x.order (by simp)

end Layout

theorem Settled.allocated_of_live (settled : b.Settled live) (member : x ∈ live) :
    b.blockState? x.addr = .ok (some (.allocated x.order)) := by
  obtain ⟨⟨chains, layout⟩, _⟩ := settled
  rw [blockState?_eq layout.placed, x.addr_div, layout.state_live_iff.mpr member]

theorem Settled.allocate_answers (settled : b.Settled live) (order align : Nat) :
    ∃ result, (b.allocate order align).Answers result := by
  rcases Layout.reading.allocate (settled_iff.mp settled) order align with
    ⟨x, after, answers, _⟩ | ⟨reason, answers⟩
  · exact ⟨_, answers⟩
  · exact ⟨_, answers⟩

theorem Settled.free_answers (settled : b.Settled live) (addr : Nat) :
    ∃ result, (b.free addr).Answers result := by
  obtain ⟨⟨chains, layout⟩, _⟩ := id settled
  by_cases used : ∃ x ∈ live, x.addr = addr
  · obtain ⟨x, member, rfl⟩ := used
    obtain ⟨after, answers, _⟩ := Layout.reading.free (settled_iff.mp settled) member
      (layout.state_live_iff.mpr member)
    exact ⟨_, answers⟩
  · have dead : ∀ index order, ¬ b.Freeable addr index order := by
      intro index order freeable
      have member := layout.state_live_iff (x := ⟨b.firstFrame + index, order⟩).mp freeable.state
      exact used ⟨_, member, freeable.page.symm⟩
    obtain ⟨reason, answers⟩ := free_unless layout.placed dead
    exact ⟨_, answers⟩

theorem Settled.consistent (settled : b.Settled live) : b.Consistent := by
  obtain ⟨⟨chains, layout⟩, accounted⟩ := settled
  have block : ∀ x : Block, (b.stateAt? x.start = some (.free x.order) ∨
      b.stateAt? x.start = some (.allocated x.order)) ↔
      x ∈ ∅ ∪ (listedBlocks b.firstFrame chains ∪ {x | x ∈ live}) := by
    intro x
    rw [layout.state_free_iff, layout.state_live_iff, Set.empty_union]
    rfl
  refine ⟨?_, ?_, ?_, ?_, ?_, ?_⟩
  · intro frame lower upper
    simp only [block]
    obtain ⟨x, member, holds⟩ := layout.tiled.covered frame lower upper
    exact ⟨x, ⟨member, holds⟩, fun y other => layout.tiled.unique other.1 member other.2 holds⟩
  · intro x tagged
    have member := (block x).mp tagged
    exact ⟨layout.tiled.small x member, layout.tiled.natural x member, layout.tiled.inside x member⟩
  · intro index bound other
    rw [record_state bound] at other ⊢
    cases state : b.pages[index].state with
    | tail => rfl
    | free order => exact absurd (congrArg some state) (other order).1
    | allocated order => exact absurd (congrArg some state) (other order).2
  · intro order bound
    have linked := layout.listed.linked order bound
    refine ⟨chains order, linked, linked.nodup, layout.listed.counted order bound, fun index => ?_⟩
    rw [layout.free_iff _ order (by simp)]
    simp [listedBlocks]
  · refine ⟨freeBlockList b.firstFrame chains, freeBlockList_nodup layout.listed, fun x => ?_, ?_⟩
    · rw [layout.state_free_iff, mem_freeBlockList layout.listed]
    · have total := layout.partition.sum_free_add_live
      change _ = ((freeBlockList b.firstFrame chains).map Block.pages).sum
      omega
  · intro frame order less free buddyFree
    have member := (layout.state_free_iff (x := ⟨frame, order⟩)).mp free
    exact layout.coalesced _ member less
      ((layout.state_free_iff (x := Block.buddy ⟨frame, order⟩)).mp buddyFree)

namespace Session

theorem perform_settled (settled : s.buddy.Settled s.live) (call : Call) :
    ∃ next, s.perform call = .ok next ∧ next.buddy.Settled next.live ∧
      next.buddy.range = s.buddy.range := by
  obtain ⟨⟨chains, layout⟩, accounted⟩ := id settled
  cases call with
  | allocate order align =>
      rcases allocate_settled settled order align with
        ⟨x, after, answer, sameOrder, _, settled, range⟩ | ⟨reason, answer⟩
      · have block : (⟨Frame.ofAddress x.addr, order⟩ : Block) = x := by
          rw [← sameOrder, Frame.ofAddress, x.addr_div]
        exact ⟨⟨after, x :: s.live⟩, by simp only [perform, answer, ok_bind, block, pure_eq_ok],
          settled, range⟩
      · exact ⟨s, by simp only [perform, answer, ok_bind, pure_eq_ok], settled, rfl⟩
  | free addr =>
      by_cases used : ∃ x ∈ s.live, x.addr = addr
      · obtain ⟨x, member, rfl⟩ := used
        obtain ⟨after, answer, settled, range⟩ := free_live settled member
        have left := layout.partition.filter_addr member
        refine ⟨⟨after, s.live.erase x⟩, ?_, settled, range⟩
        simp only [perform, answer, ok_bind, left, pure_eq_ok]
      · push Not at used
        exact ⟨s, by simp only [perform, free_refused layout used, ok_bind, pure_eq_ok], settled, rfl⟩

theorem run_settled (calls : List Call) (settled : s.buddy.Settled s.live) :
    ∃ last, s.run calls = .ok last ∧ last.buddy.Settled last.live ∧
      last.buddy.range = s.buddy.range := by
  induction calls generalizing s with
  | nil => exact ⟨s, rfl, settled, rfl⟩
  | cons call rest ih =>
      obtain ⟨next, performed, settled, range⟩ := perform_settled settled call
      obtain ⟨last, ran, settled, sameRange⟩ := ih settled
      refine ⟨last, ?_, settled, sameRange.trans range⟩
      rw [run, List.foldlM_cons, performed]
      exact ran

end Session

theorem Settled.frames (settled : b.Settled live) {pages : Nat}
    (range : b.range = ⟨first * pageSize, pages * pageSize⟩) :
    b.firstFrame = first ∧ b.pages.size = pages := by
  obtain ⟨⟨chains, layout⟩, _⟩ := settled
  exact layout.placed.frames range

theorem Settled.same_frames {c : Buddy} {used : List Block} (settled : b.Settled live)
    (other : c.Settled used) (range : c.range = b.range) :
    c.firstFrame = b.firstFrame ∧ c.pages.size = b.pages.size := by
  obtain ⟨⟨chains, layout⟩, _⟩ := settled
  obtain ⟨⟨others, otherLayout⟩, _⟩ := other
  exact layout.placed.same_frames otherLayout.placed range

/-- Whatever is asked of a buddy, in whatever order, the blocks tile the whole pages of its range,
the lists and the count name the free ones, and no two free blocks are buddies. -/
theorem run_consistent (accepted : Accepted range records) (calls : List Call) :
    ∃ b s, create range records = .ok b ∧ Session.run ⟨b, []⟩ calls = .ok s ∧
      s.buddy.firstFrame = range.firstFrame ∧ s.buddy.pages.size = range.wholePages ∧
      s.buddy.Consistent := by
  obtain ⟨b, created, settled, whole⟩ := create_settled accepted
  obtain ⟨s, ran, settled, same⟩ := Session.run_settled (s := ⟨b, []⟩) calls settled
  have frames := settled.frames (same.trans whole)
  exact ⟨b, s, created, ran, frames.1, frames.2, settled.consistent⟩

theorem accepted_five : Accepted ⟨12288, 20480⟩ 5 :=
  ⟨by decide, by decide, by decide, by decide⟩

theorem run_consistent_five :
    Accepted ⟨12288, 20480⟩ 5 ∧
      ∃ b s, create ⟨12288, 20480⟩ 5 = .ok b ∧
        Session.run ⟨b, []⟩ [.allocate 1 4096, .free 12288] = .ok s ∧
        s.buddy.firstFrame = 3 ∧ s.buddy.pages.size = 5 ∧ s.buddy.Consistent :=
  ⟨accepted_five, run_consistent accepted_five [.allocate 1 4096, .free 12288]⟩

end ZonedMemory.Buddy
