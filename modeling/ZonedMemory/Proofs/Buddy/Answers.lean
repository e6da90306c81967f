import ZonedMemory.Proofs.Buddy.Canonical

namespace ZonedMemory.Buddy

/-!
What a buddy answers, told from outside: by its range and by the blocks that its clients have. What
its records and lists say plays no part here, so a tag that some earlier block left behind cannot
either.
-/

/-- A natural run of whole pages of the range that no client has. -/
def Unused (range : Range) (live : List Block) (x : Block) : Prop :=
  Spare range.firstFrame (range.firstFrame + range.wholePages) {y | y ∈ live} x

/-- The free blocks are the largest runs that are not in use. -/
def FreeBlock (range : Range) (live : List Block) (x : Block) : Prop :=
  Unused range live x ∧ ∀ y, Unused range live y → x.Within y → x = y

/-- The smallest order of a free block whose lowest part will do. -/
def leastOrder (order align : Nat) : Nat := max order (Nat.clog 2 align - pageShift)

/-- The order that a request is turned down for, if blocks of any order would be too small for it. -/
def excess (order align : Nat) : Option Nat :=
  if 11 ≤ order then some order
  else if 2 ^ 63 < align then some 64
  else if 11 ≤ leastOrder order align then some (leastOrder order align)
  else none

namespace Session

/-- The block that is handed out for a request, and the buddy `after` it. -/
structure Hands (range : Range) (s : Session) (order align : Nat) (x : Block) (after : Buddy) : Prop where
  sized : x.order = order
  unused : Unused range s.live x
  natural : x.bytes ∣ x.addr
  aligned : 2 ^ Nat.clog 2 align ∣ x.addr
  /-- The block is the lowest part of a free one, and no smaller free block would have done. -/
  lowest : ∃ y, FreeBlock range s.live y ∧ y.start = x.start ∧ leastOrder order align ≤ y.order ∧
    ∀ z, FreeBlock range s.live z → leastOrder order align ≤ z.order → y.order ≤ z.order
  tagged : after.blockState? x.addr = .ok (some (.allocated order))
  counted : after.freePages + 2 ^ order = s.buddy.freePages

/-- How a request is answered, and the buddy `after` it. -/
structure Allocates (range : Range) (s : Session) (order align : Nat)
    (answer : Except AllocError Nat) (after : Buddy) : Prop where
  denied : ∀ large, excess order align = some large → answer = .error (.orderTooLarge large)
  granted_iff : excess order align = none →
    ((∃ addr, answer = .ok addr) ↔ ∃ x : Block, x.order = leastOrder order align ∧ Unused range s.live x)
  exhausted : excess order align = none →
    (¬ ∃ x : Block, x.order = leastOrder order align ∧ Unused range s.live x) →
    answer = .error .outOfMemory
  handed : ∀ addr, answer = .ok addr → ∃ x : Block, x.addr = addr ∧ s.Hands range order align x after
  kept : ∀ reason, answer = .error reason → after = s.buddy

/-- How a free is answered, and the buddy `after` it. -/
structure Frees (range : Range) (s : Session) (addr : Nat) (answer : Except FreeError Nat)
    (after : Buddy) : Prop where
  misaligned : ¬ pageSize ∣ addr → answer = .error .misaligned
  outside : pageSize ∣ addr → ¬ s.buddy.range.Holds addr → answer = .error .unknownAddress
  freed_iff : ∀ pages, answer = .ok pages ↔ ∃ x ∈ s.live, x.addr = addr ∧ 2 ^ x.order = pages
  doubled : (∃ x, FreeBlock range s.live x ∧ x.addr = addr) → answer = .error .doubleFree
  inner : pageSize ∣ addr → s.buddy.range.Holds addr → (∀ x ∈ s.live, x.addr ≠ addr) →
    (∀ x, FreeBlock range s.live x → x.addr ≠ addr) → answer = .error .notBlockStart
  uncorrupted : ∀ order, answer ≠ .error (.corruptOrder order)
  counted : ∀ pages, answer = .ok pages → after.freePages = s.buddy.freePages + pages
  /-- All other live blocks stay what they are. -/
  others : ∀ x ∈ s.live, x.addr ≠ addr → after.blockState? x.addr = .ok (some (.allocated x.order))
  kept : ∀ reason, answer = .error reason → after = s.buddy

end Session

variable {b after : Buddy} {s : Session} {chains : Nat → List Nat} {live : List Block} {x : Block}
  {range : Range} {records order align addr large : Nat}

/-- The buddy covers the whole pages of the range. -/
structure Over (b : Buddy) (range : Range) : Prop where
  firstFrame : b.firstFrame = range.firstFrame
  size : b.pages.size = range.wholePages

theorem refusal_ne_corruptOrder (b : Buddy) (addr order : Nat) :
    b.refusal addr ≠ .corruptOrder order := by
  unfold refusal
  split
  · split <;> nofun
  · nofun

namespace Settled

theorem freeBlock_iff (settled : b.Settled live) (covers : b.Over range) :
    FreeBlock range live x ↔ b.stateAt? x.start = some (.free x.order) := by
  rw [settled.free_iff_maximal, covers.firstFrame, covers.size]
  exact Iff.rfl

theorem freeBlock_iff_blockState (settled : b.Settled live) (covers : b.Over range) :
    FreeBlock range live x ↔ b.blockState? x.addr = .ok (some (.free x.order)) := by
  obtain ⟨⟨chains, layout⟩, _⟩ := id settled
  rw [settled.freeBlock_iff covers, blockState?_eq layout.placed, x.addr_div, Except.ok.injEq]

/-- Making a block live takes its pages from the count. -/
theorem freePages_of_cons (settled : b.Settled live) (next : after.Settled (x :: live))
    (same : after.range = b.range) : after.freePages + x.pages = b.freePages := by
  have size := (settled.same_frames next same).2
  have before := settled.accounted
  have later := next.accounted
  rw [List.map_cons, List.sum_cons] at later
  omega

theorem freePages_of_erase (settled : b.Settled live) (next : after.Settled (live.erase x))
    (member : x ∈ live) (same : after.range = b.range) : after.freePages = b.freePages + x.pages :=
  (next.freePages_of_cons (settled.perm (List.perm_cons_erase member)) same.symm).symm

/-- A block that became live was not in use before. -/
theorem unused_of_cons (settled : b.Settled live) (covers : b.Over range) (next : after.Settled (x :: live))
    (same : after.range = b.range) : Unused range live x := by
  obtain ⟨first, size⟩ := settled.same_frames next same
  obtain ⟨⟨chains, layout⟩, _⟩ := next
  have newest : x ∈ x :: live := List.mem_cons_self ..
  have inside := layout.tiled.inside x (.inr (.inr newest))
  rw [first, size, covers.firstFrame, covers.size] at inside
  constructor
  · exact layout.tiled.natural x (.inr (.inr newest))
  · exact layout.tiled.small x (.inr (.inr newest))
  · exact inside
  · intro y used
    apply layout.tiled.apart x (.inr (.inr newest)) y (.inr (.inr (List.mem_cons_of_mem x used)))
    intro equal
    exact (List.nodup_cons.mp layout.distinct).1 (equal ▸ used)

end Settled

theorem Layout.freeBlock_iff (layout : b.Layout chains live ∅) (covers : b.Over range) :
    FreeBlock range live x ↔ x ∈ listedBlocks b.firstFrame chains := by
  rw [layout.free_iff_maximal, covers.firstFrame, covers.size]
  exact Iff.rfl

theorem Layout.unused_iff (layout : b.Layout chains live ∅) (covers : b.Over range)
    (small : order ≤ Order.top) :
    (∃ x : Block, x.order = order ∧ Unused range live x) ↔ ∃ large, order ≤ large ∧ chains large ≠ [] := by
  rw [← layout.spare_iff small, covers.firstFrame, covers.size]
  exact Iff.rfl

theorem allocate_excess (b : Buddy) (beyond : excess order align = some large) :
    (b.allocate order align).outcome = .ok (.error (.orderTooLarge large), b) := by
  have aligned := Order.ofAlignment_eq align
  unfold excess at beyond
  split at beyond
  · rename_i oversized
    obtain rfl := Option.some.inj beyond
    exact (allocate_beyond b align oversized).outcome
  · rename_i small
    split at beyond
    · rename_i past
      obtain rfl := Option.some.inj beyond
      rw [if_neg (Nat.not_le.mpr past)] at aligned
      exact (allocate_unalignable b (Nat.lt_of_not_le small) aligned).outcome
    · rename_i word
      split at beyond
      · rename_i overaligned
        obtain rfl := Option.some.inj beyond
        rw [if_pos (Nat.le_of_not_lt word)] at aligned
        exact (allocate_overaligned b (Nat.lt_of_not_le small) aligned overaligned).outcome
      · cases beyond

theorem excess_eq_none (fits : excess order align = none) :
    Order.ofAlignment align = .ok (some (Nat.clog 2 align - pageShift)) ∧
      leastOrder order align < Order.count := by
  unfold excess at fits
  split at fits
  · cases fits
  · split at fits
    · cases fits
    · rename_i word
      split at fits
      · cases fits
      · rename_i small
        rw [Order.ofAlignment_eq, if_pos (Nat.le_of_not_lt word)]
        exact ⟨rfl, Nat.lt_of_not_le small⟩

namespace Session

theorem Allocates.of_excess (beyond : excess order align = some large) :
    s.Allocates range order align (.error (.orderTooLarge large)) s.buddy := by
  constructor
  · intro other same
    rw [Option.some.inj (beyond.symm.trans same)]
  · intro fits
    cases beyond.symm.trans fits
  · intro fits
    cases beyond.symm.trans fits
  · intro addr granted
    cases granted
  · exact fun _ _ => rfl

theorem Allocates.of_hands (fits : excess order align = none)
    (room : ∃ x : Block, x.order = leastOrder order align ∧ Unused range s.live x)
    (hands : s.Hands range order align x after) : s.Allocates range order align (.ok x.addr) after := by
  constructor
  · intro large beyond
    cases beyond.symm.trans fits
  · intro _
    exact iff_of_true ⟨x.addr, rfl⟩ room
  · intro _ none
    exact absurd room none
  · intro addr granted
    exact ⟨x, Except.ok.inj granted, hands⟩
  · intro reason refused
    cases refused

theorem Allocates.of_exhausted (fits : excess order align = none)
    (none : ¬ ∃ x : Block, x.order = leastOrder order align ∧ Unused range s.live x) :
    s.Allocates range order align (.error .outOfMemory) s.buddy := by
  constructor
  · intro large beyond
    cases beyond.symm.trans fits
  · intro _
    constructor
    · intro granted
      obtain ⟨addr, granted⟩ := granted
      cases granted
    · intro room
      exact absurd room none
  · exact fun _ _ => rfl
  · intro addr granted
    cases granted
  · exact fun _ _ => rfl

theorem allocate_hands (settled : s.buddy.Settled s.live) (covers : s.buddy.Over range)
    (fits : excess order align = none)
    (room : ∃ x : Block, x.order = leastOrder order align ∧ Unused range s.live x) :
    ∃ x after, (s.buddy.allocate order align).outcome = .ok (.ok x.addr, after) ∧
      s.Hands range order align x after := by
  obtain ⟨aligned, small⟩ := excess_eq_none fits
  obtain ⟨⟨chains, layout⟩, _⟩ := id settled
  obtain ⟨large, least, some⟩ := (layout.unused_iff covers (Nat.le_of_lt_succ small)).mp room
  obtain ⟨x, after, answers, sized, divides, ⟨rested, same⟩, y, free, start, enough, smallest⟩ :=
    Layout.reading.allocate_some (settled_iff.mp settled) layout aligned small least some
  have next := settled_iff.mpr rested
  have spare := settled.unused_of_cons covers next same
  refine ⟨x, after, answers.outcome, ?_⟩
  constructor
  · exact sized
  · exact spare
  · exact Nat.mul_dvd_mul_right spare.natural _
  · exact (pow_dvd_pow 2 (by omega)).trans divides
  · exact ⟨y, (layout.freeBlock_iff covers).mpr free, start, enough,
      fun z other => smallest z ((layout.freeBlock_iff covers).mp other)⟩
  · rw [← sized]
    exact next.allocated_of_live (List.mem_cons_self ..)
  · rw [← sized]
    exact settled.freePages_of_cons next same

theorem allocate_exhausted (settled : s.buddy.Settled s.live) (covers : s.buddy.Over range)
    (fits : excess order align = none)
    (none : ¬ ∃ x : Block, x.order = leastOrder order align ∧ Unused range s.live x) :
    (s.buddy.allocate order align).outcome = .ok (.error .outOfMemory, s.buddy) := by
  obtain ⟨aligned, small⟩ := excess_eq_none fits
  obtain ⟨⟨chains, layout⟩, _⟩ := settled
  rw [layout.unused_iff covers (Nat.le_of_lt_succ small)] at none
  push Not at none
  exact (Buddy.allocate_exhausted layout.listed aligned small none).outcome

theorem allocate_answered (settled : s.buddy.Settled s.live) (covers : s.buddy.Over range)
    (order align : Nat) :
    ∃ answer after, (s.buddy.allocate order align).outcome = .ok (answer, after) ∧
      s.Allocates range order align answer after := by
  cases bound : excess order align with
  | some large => exact ⟨_, _, allocate_excess s.buddy bound, .of_excess bound⟩
  | none =>
      by_cases room : ∃ x : Block, x.order = leastOrder order align ∧ Unused range s.live x
      · obtain ⟨x, after, answer, hands⟩ := allocate_hands settled covers bound room
        exact ⟨_, after, answer, .of_hands bound room hands⟩
      · exact ⟨_, _, allocate_exhausted settled covers bound room, .of_exhausted bound room⟩

theorem holds_iff (settled : s.buddy.Settled s.live) :
    s.buddy.range.Holds addr ↔ s.buddy.firstFrame ≤ addr / pageSize ∧
      addr / pageSize < s.buddy.firstFrame + s.buddy.pages.size := by
  obtain ⟨⟨chains, layout⟩, _⟩ := settled
  rw [Range.Holds, layout.placed.base, layout.placed.size, ← Nat.add_mul,
    Nat.le_div_iff_mul_le pageSize_pos, Nat.div_lt_iff_lt_mul pageSize_pos]

theorem free_live_answered (settled : s.buddy.Settled s.live) (covers : s.buddy.Over range)
    (member : x ∈ s.live) :
    ∃ after, (s.buddy.free x.addr).outcome = .ok (.ok x.pages, after) ∧
      s.Frees range x.addr (.ok x.pages) after := by
  obtain ⟨⟨chains, layout⟩, _⟩ := id settled
  obtain ⟨after, answer, next, same⟩ := free_live settled member
  have only : ∀ y ∈ s.live, y.addr = x.addr → y = x := fun y listed equal =>
    layout.partition.addr_inj listed member equal
  refine ⟨after, answer, ?_⟩
  constructor
  · intro odd
    exact absurd x.page_dvd_addr odd
  · intro _ outside
    have inside := layout.tiled.inside x (.inr (.inr member))
    have := x.start_lt_stop
    rw [holds_iff settled, x.addr_div] at outside
    omega
  · intro pages
    constructor
    · intro freed
      exact ⟨x, member, rfl, Except.ok.inj freed⟩
    · intro freed
      obtain ⟨y, listed, equal, size⟩ := freed
      rw [only y listed equal] at size
      exact congrArg Except.ok size
  · intro free
    obtain ⟨y, free, equal⟩ := free
    have start : y.start = x.start := Nat.eq_of_mul_eq_mul_right pageSize_pos equal
    have tagged := (settled.freeBlock_iff covers).mp free
    rw [start, layout.state_live_iff.mpr member] at tagged
    cases tagged
  · intro _ _ dead
    exact absurd rfl (dead x member)
  · intro order corrupt
    cases corrupt
  · intro pages freed
    rw [← Except.ok.inj freed]
    exact settled.freePages_of_erase next member same
  · intro y listed different
    have distinct : y ≠ x := fun equal => different (congrArg Block.addr equal)
    exact next.allocated_of_live ((List.mem_erase_of_ne distinct).mpr listed)
  · intro reason refused
    cases refused

theorem free_dead_answered (settled : s.buddy.Settled s.live) (covers : s.buddy.Over range)
    (dead : ∀ x ∈ s.live, x.addr ≠ addr) :
    s.Frees range addr (.error (s.buddy.refusal addr)) s.buddy := by
  constructor
  · intro odd
    rw [refusal, if_neg odd]
  · intro aligned outside
    rw [refusal, if_pos aligned, stateAt?_eq_none (mt (holds_iff settled).mpr outside)]
  · intro pages
    constructor
    · intro freed
      cases freed
    · intro live
      obtain ⟨x, member, equal, _⟩ := live
      exact absurd equal (dead x member)
  · intro free
    obtain ⟨x, free, rfl⟩ := free
    rw [refusal, if_pos x.page_dvd_addr, x.addr_div, (settled.freeBlock_iff covers).mp free]
  · intro aligned inside _ taken
    obtain ⟨state, tagged⟩ := exists_stateAt? ((holds_iff settled).mp inside)
    rw [refusal, if_pos aligned, tagged]
    cases state with
    | tail => rfl
    | allocated order => rfl
    | free order =>
        have page : Block.addr ⟨addr / pageSize, order⟩ = addr := Nat.div_mul_cancel aligned
        exact absurd page (taken _ ((settled.freeBlock_iff covers).mpr tagged))
  · intro order corrupt
    exact s.buddy.refusal_ne_corruptOrder addr order (Except.error.inj corrupt)
  · intro pages freed
    cases freed
  · intro x member _
    exact settled.allocated_of_live member
  · exact fun _ _ => rfl

theorem free_answered (settled : s.buddy.Settled s.live) (covers : s.buddy.Over range) (addr : Nat) :
    ∃ answer after, (s.buddy.free addr).outcome = .ok (answer, after) ∧
      s.Frees range addr answer after := by
  by_cases used : ∃ x ∈ s.live, x.addr = addr
  · obtain ⟨x, member, rfl⟩ := used
    obtain ⟨after, answer, frees⟩ := free_live_answered settled covers member
    exact ⟨_, after, answer, frees⟩
  · push Not at used
    obtain ⟨⟨chains, layout⟩, _⟩ := id settled
    exact ⟨_, _, free_refused layout used, free_dead_answered settled covers used⟩

end Session

theorem run_over (accepted : Accepted range records) (calls : List Call) :
    ∃ b s, create range records = .ok b ∧ Session.run ⟨b, []⟩ calls = .ok s ∧
      s.buddy.Settled s.live ∧ s.buddy.Over range ∧
      s.buddy.range = ⟨range.firstFrame * pageSize, range.wholePages * pageSize⟩ := by
  obtain ⟨b, created, fresh, whole⟩ := create_settled accepted
  obtain ⟨s, ran, settled, same⟩ := Session.run_settled (s := ⟨b, []⟩) calls fresh
  obtain ⟨first, size⟩ := settled.frames (same.trans whole)
  exact ⟨b, s, created, ran, settled, ⟨first, size⟩, same.trans whole⟩

/-- Allocation is sound and complete in the pages that no client has: whatever calls came before, a
request is turned down for its order, or granted, or refused for want of a run that is large enough,
and what it is granted is the lowest part of the smallest free block that will do. -/
theorem run_allocate (accepted : Accepted range records) (calls : List Call) :
    ∃ b s, create range records = .ok b ∧ Session.run ⟨b, []⟩ calls = .ok s ∧
      (∀ x : Block, FreeBlock range s.live x ↔ s.buddy.blockState? x.addr = .ok (some (.free x.order))) ∧
      ∀ order align, ∃ answer after, (s.buddy.allocate order align).outcome = .ok (answer, after) ∧
        s.Allocates range order align answer after := by
  obtain ⟨b, s, created, ran, settled, covers, _⟩ := run_over accepted calls
  exact ⟨b, s, created, ran, fun x => settled.freeBlock_iff_blockState covers,
    Session.allocate_answered settled covers⟩

theorem run_allocate_five :
    Accepted ⟨12288, 20480⟩ 5 ∧
      ∃ b s, create ⟨12288, 20480⟩ 5 = .ok b ∧ Session.run ⟨b, []⟩ [.allocate 1 0] = .ok s ∧
        ∃ answer after, (s.buddy.allocate 1 8192).outcome = .ok (answer, after) ∧
          s.Allocates ⟨12288, 20480⟩ 1 8192 answer after := by
  obtain ⟨b, s, created, ran, _, answered⟩ := run_allocate accepted_five [.allocate 1 0]
  exact ⟨accepted_five, b, s, created, ran, answered 1 8192⟩

/-- Freeing gives back the live blocks and nothing else: whatever calls came before, an address where
no live block starts is refused, with the reason that its place in the range gives. -/
theorem run_free (accepted : Accepted range records) (calls : List Call) :
    ∃ b s, create range records = .ok b ∧ Session.run ⟨b, []⟩ calls = .ok s ∧
      s.buddy.range = ⟨range.firstFrame * pageSize, range.wholePages * pageSize⟩ ∧
      (∀ x : Block, FreeBlock range s.live x ↔ s.buddy.blockState? x.addr = .ok (some (.free x.order))) ∧
      ∀ addr, ∃ answer after, (s.buddy.free addr).outcome = .ok (answer, after) ∧
        s.Frees range addr answer after := by
  obtain ⟨b, s, created, ran, settled, covers, same⟩ := run_over accepted calls
  exact ⟨b, s, created, ran, same, fun x => settled.freeBlock_iff_blockState covers,
    Session.free_answered settled covers⟩

theorem run_free_five :
    Accepted ⟨12288, 20480⟩ 5 ∧
      ∃ b s, create ⟨12288, 20480⟩ 5 = .ok b ∧
        Session.run ⟨b, []⟩ [.allocate 1 0, .free 16384] = .ok s ∧
        ∃ answer after, (s.buddy.free 16384).outcome = .ok (answer, after) ∧
          s.Frees ⟨12288, 20480⟩ 16384 answer after := by
  obtain ⟨b, s, created, ran, _, _, answered⟩ := run_free accepted_five [.allocate 1 0, .free 16384]
  exact ⟨accepted_five, b, s, created, ran, answered 16384⟩

end ZonedMemory.Buddy
