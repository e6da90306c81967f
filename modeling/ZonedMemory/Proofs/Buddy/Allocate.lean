import ZonedMemory.Buddy.Allocate
import ZonedMemory.Proofs.Buddy.Release

namespace ZonedMemory.Buddy

/-!
Allocating. The first free block of the smallest order that will do is taken into the hands and
halved; every upper half goes to its list, and its buddy is in the hands, so it stays alone there.
What is left starts where the free block did and so is aligned as well as that was.
-/

variable {b : Buddy} {chains : Nat → List Nat} {live : List Block}
  {index order align alignOrder found least : Nat}
  {R : Buddy → (Nat → List Nat) → List Block → Set Block → Prop}

theorem freeBlocks_eq (listed : b.Listed chains) (order : Nat) :
    b.freeBlocks order = (chains order).length := by
  unfold freeBlocks
  split
  · rename_i bound
    exact listed.counted order bound
  · rename_i beyond
    rw [listed.beyond order (Nat.le_of_not_lt beyond)]
    rfl

theorem smallestFreeOrder?_some (listed : b.Listed chains)
    (answer : b.smallestFreeOrder? least = some found) :
    found < Order.count ∧ least ≤ found ∧ chains found ≠ [] ∧
      ∀ order, least ≤ order → order < found → chains order = [] := by
  obtain ⟨holds, front, back, spelled, before⟩ := List.find?_eq_some_iff_append.mp answer
  have member : found ∈ List.range Order.count := List.mem_of_find?_eq_some answer
  simp only [Bool.and_eq_true, decide_eq_true_eq, freeBlocks_eq listed, gt_iff_lt,
    List.length_pos_iff] at holds
  have small := List.mem_range.mp member
  refine ⟨small, holds.1, holds.2, fun order lower upper => ?_⟩
  have sorted : (front ++ found :: back).Pairwise (· < ·) := spelled ▸ List.pairwise_lt_range
  have earlier : order ∈ front := by
    have inRange : order ∈ List.range Order.count := List.mem_range.mpr (upper.trans small)
    rw [spelled] at inRange
    rcases List.mem_append.mp inRange with earlier | later
    · exact earlier
    · rcases List.mem_cons.mp later with rfl | later
      · exact absurd upper (lt_irrefl _)
      · have := List.rel_of_pairwise_cons (List.pairwise_append.mp sorted).2.1 later
        omega
  have nothing := before order earlier
  simp only [Bool.not_eq_eq_eq_not, Bool.not_true, Bool.and_eq_false_imp, decide_eq_true_eq,
    decide_eq_false_iff_not, freeBlocks_eq listed, gt_iff_lt, List.length_pos_iff, not_not] at nothing
  exact nothing lower

theorem smallestFreeOrder?_none (listed : b.Listed chains)
    (answer : b.smallestFreeOrder? least = none) : ∀ order, least ≤ order → chains order = [] := by
  intro order lower
  by_cases small : order < Order.count
  · have nothing := List.find?_eq_none.mp answer order (List.mem_range.mpr small)
    simp only [Bool.and_eq_true, decide_eq_true_eq, freeBlocks_eq listed, gt_iff_lt,
      List.length_pos_iff, not_and, not_not] at nothing
    exact nothing lower
  · exact listed.beyond order (Nat.le_of_not_lt small)

/-- Splitting leaves the lowest part of the block in the hands and gives the rest away. -/
theorem Reading.splitDown (reading : Reading R)
    (inHand : R b chains live {⟨b.firstFrame + index, found⟩}) (le : order ≤ found) :
    ∃ after chains', (splitDown index order found b).Answers after ∧ SameExtent b after ∧
      R after chains' live {⟨b.firstFrame + index, order⟩} := by
  induction found generalizing b chains with
  | zero =>
      obtain rfl : order = 0 := Nat.le_zero.mp le
      exact ⟨b, chains, .pure b, .refl b, inHand⟩
  | succ half ih =>
      unfold Buddy.splitDown
      by_cases done : half < order
      · obtain rfl : order = half + 1 := by omega
        exact ⟨b, chains, by rw [if_pos done]; exact .pure b, .refl b, inHand⟩
      · have parts := reading.partition inHand
        have natural := parts.tiled.natural _ (.inl rfl)
        have small : half + 1 ≤ Order.top := parts.tiled.small _ (.inl rfl)
        have few := parts.placed.frames_lt
        have inside := parts.tiled.inside _ (.inl rfl)
        simp only [Block.stop, Block.pages, pow_succ] at inside
        have positive := Nat.two_pow_pos half
        have shift : Word.shiftLeft 1 half = .ok (2 ^ half) :=
          Word.shiftLeft_one ((Nat.lt_of_succ_le small).trans (by decide))
        have sum : Word.add index (2 ^ half) = .ok (index + 2 ^ half) := Word.add_eq (by omega)
        have bound : index + 2 ^ half < b.pages.size := by omega
        have pieces := reading.cut_held inHand
        rw [Set.pair_comm] at pieces
        -- the buddy of the upper half is the lower half, which is in the hands
        have lone : Block.buddy ⟨b.firstFrame + index + 2 ^ half, half⟩ ∉
            listedBlocks b.firstFrame chains := by
          have pair := natural.lower_half.2
          rw [← pair, Block.buddy_buddy]
          exact ((reading.partition pieces).unheld _ (.inr rfl)).1
        have different : (⟨b.firstFrame + index + 2 ^ half, half⟩ : Block) ∉
            ({⟨b.firstFrame + index, half⟩} : Set Block) := by
          intro same
          have := congrArg Block.start same
          simp only at this
          omega
        obtain ⟨given, pushed, extent, kept⟩ :=
          reading.give_free pieces different (Nat.add_assoc _ _ _) fun _ free => absurd free lone
        have lower : index < given.pages.size := by
          rw [extent.size]
          omega
        obtain ⟨text, line⟩ := pageText_eq (parts.placed.extent extent) lower
        rw [← extent.firstFrame] at kept
        obtain ⟨after, chains', answers, lastExtent, result⟩ := ih kept (Nat.le_of_not_lt done)
        rw [extent.firstFrame] at result
        refine ⟨after, chains', ?_, extent.trans lastExtent, result⟩
        rw [if_neg done]
        refine .bind (.lift shift) (.bind (.lift sum) (.bind (.lift (tag_eq bound)) ?_))
        refine .bind (.lift pushed) (.bind (.report ?_) answers)
        simp only [Event.text, BuddyEvent.text, line, ok_bind]
        exact ⟨_, rfl⟩

/-- Taking the first block of a list and splitting it leaves a live block that starts where the free
one did. -/
theorem Reading.pop_split {rest : List Nat} (reading : Reading R) (known : R b chains live ∅)
    (spelled : chains found = index :: rest) (le : order ≤ found) :
    ∃ popped cut chains', b.pop found = .ok (some index, popped) ∧
      (Buddy.splitDown index order found popped).Answers cut ∧
      cut.tag index (.allocated order) = .ok (cut.retagged index (.allocated order)) ∧
      SameExtent b (cut.retagged index (.allocated order)) ∧ 2 ^ found ∣ b.firstFrame + index ∧
      R (cut.retagged index (.allocated order)) chains' (⟨b.firstFrame + index, order⟩ :: live) ∅ := by
  have listed := (reading.partition known).listed
  have member : index ∈ chains found := by simp [spelled]
  have small := listed.order_lt member
  obtain ⟨popped, answer, extent, states, shorter⟩ := pop_listed listed small spelled
  have left : (chains found).erase index = rest := by rw [spelled, List.erase_cons_head]
  have inHand := reading.hold_free known member extent states (left ▸ shorter)
  rw [insert_empty_eq, ← extent.firstFrame] at inHand
  have natural : 2 ^ found ∣ popped.firstFrame + index :=
    (reading.partition inHand).tiled.natural _ (.inl rfl)
  obtain ⟨cut, chains', split, cutExtent, inHand⟩ := reading.splitDown inHand le
  have bound : index < cut.pages.size := by
    rw [cutExtent.size, extent.size]
    exact listed.lt_size member
  have whole := extent.trans cutExtent
  rw [← cutExtent.firstFrame, whole.firstFrame] at inHand
  have start : b.firstFrame + index = cut.firstFrame + index := by rw [whole.firstFrame]
  have given := reading.give_live inHand start
  rw [extent.firstFrame] at natural
  exact ⟨popped, cut, chains', answer, split, tag_eq bound, whole.trans (retagged_extent ..), natural, given⟩

/-- Taking a block off a list answers with the address of its first page, which is aligned as asked,
and makes that many pages live. -/
theorem Reading.take {rest : List Nat} (reading : Reading R) (align : Nat) (rested : b.Rested R live)
    (known : R b chains live ∅) (spelled : chains found = index :: rest) (le : order ≤ found)
    (aligned : alignOrder ≤ found) :
    ∃ after, (b.take order align alignOrder found).Answers
        (.ok (Block.addr ⟨b.firstFrame + index, order⟩), after) ∧
      2 ^ (alignOrder + pageShift) ∣ Block.addr ⟨b.firstFrame + index, order⟩ ∧
      after.Rested R (⟨b.firstFrame + index, order⟩ :: live) ∧ after.range = b.range := by
  obtain ⟨popped, cut, chains', answer, split, tagged, extent, natural, given⟩ :=
    reading.pop_split known spelled le
  have small : found < Order.count :=
    (reading.partition known).listed.order_lt (spelled ▸ List.mem_cons_self ..)
  have divides : 2 ^ (alignOrder + pageShift) ∣ Block.addr ⟨b.firstFrame + index, order⟩ :=
    Block.dvd_addr natural (Nat.add_le_add_right aligned _)
  have parts := reading.partition given
  have frames := parts.placed.frames_word
  have few := parts.placed.frames_lt
  have inside := parts.tiled.inside _ (.inr (.inr (List.mem_cons_self ..)))
  have fits := parts.tiled.sum_pages_le (fun y member => .inr (.inr member)) parts.distinct
  generalize named : cut.retagged index (.allocated order) = taken at *
  rw [extent.size, extent.firstFrame, List.map_cons, List.sum_cons] at fits
  rw [extent.size, extent.firstFrame] at few frames inside
  simp only [Block.stop, Block.pages] at fits inside
  have counted := rested.accounted
  have count : Word.sub taken.freePages (2 ^ order) = .ok (b.freePages - 2 ^ order) := by
    rw [← extent.freePages]
    exact Word.sub_eq (by rw [extent.freePages]; omega)
  have shift : Word.shiftLeft 1 order = .ok (2 ^ order) :=
    Word.shiftLeft_one ((le.trans_lt small).trans (by decide))
  have alignShift : Word.add alignOrder pageShift = .ok (alignOrder + pageShift) :=
    Word.add_eq (by have : Order.count + pageShift < 2 ^ 64 := by decide
                    omega)
  have bytes : Word.shiftLeft 1 (alignOrder + pageShift) = .ok (2 ^ (alignOrder + pageShift)) :=
    Word.shiftLeft_one (by have : Order.count + pageShift < 64 := by decide
                           omega)
  have address : addressOf { taken with freePages := b.freePages - 2 ^ order } index =
      .ok (Block.addr ⟨b.firstFrame + index, order⟩) := by
    have positive := Nat.two_pow_pos order
    have frame : Word.add taken.firstFrame index = .ok (b.firstFrame + index) := by
      rw [extent.firstFrame]
      exact Word.add_eq (by omega)
    have start : Frame.start (b.firstFrame + index) = .ok ((b.firstFrame + index) * pageSize) :=
      Frame.start_eq (lt_of_le_of_lt (Nat.mul_le_mul_right _ (by omega)) frames)
    simp only [addressOf, frame, start, ok_bind]
    rfl
  refine ⟨{ taken with freePages := b.freePages - 2 ^ order }, ?_, divides,
    ⟨⟨chains', reading.withFreePages _ given⟩, ?_⟩, extent.range⟩
  · have checked : Address.isAligned (Block.addr ⟨b.firstFrame + index, order⟩)
        (2 ^ (alignOrder + pageShift)) = .ok true := by
      rw [Address.isAligned_two_pow, decide_eq_true divides]
    refine .bind (.lift answer) (.bind split (.bind (.lift tagged) (.bind (.lift shift) ?_)))
    refine .bind (.lift count) (.bind (.lift address) ?_)
    dsimp only
    split
    · refine .bind (.lift alignShift) (.bind (.lift bytes) (.bind (.lift checked) ?_))
      exact .bind (.pure true) (.bind (.report ⟨_, rfl⟩) (.pure _))
    · exact .bind (.pure true) (.bind (.report ⟨_, rfl⟩) (.pure _))
  · change b.freePages - 2 ^ order + (Block.pages ⟨_, order⟩ + (live.map Block.pages).sum) =
      taken.pages.size
    rw [extent.size]
    simp only [Block.pages]
    omega

/-- An order that no block has is turned down at once. -/
theorem allocate_beyond (b : Buddy) (align : Nat) (large : Order.count ≤ order) :
    (b.allocate order align).Answers (.error (.orderTooLarge order), b) := by
  rw [allocate, if_pos large]
  exact .pure _

theorem allocate_unalignable (b : Buddy) (small : order < Order.count)
    (unalignable : Order.ofAlignment align = .ok none) :
    (b.allocate order align).Answers (.error (.orderTooLarge 64), b) := by
  rw [allocate, if_neg (Nat.not_le.mpr small)]
  exact .bind (.lift unalignable) (.pure _)

theorem allocate_overaligned (b : Buddy) (small : order < Order.count)
    (aligned : Order.ofAlignment align = .ok (some alignOrder))
    (large : Order.count ≤ max order alignOrder) :
    (b.allocate order align).Answers (.error (.orderTooLarge (max order alignOrder)), b) := by
  rw [allocate, if_neg (Nat.not_le.mpr small)]
  refine .bind (.lift aligned) ?_
  simp only [if_pos large]
  exact .pure _

theorem allocate_exhausted (listed : b.Listed chains)
    (aligned : Order.ofAlignment align = .ok (some alignOrder))
    (small : max order alignOrder < Order.count)
    (empty : ∀ large, max order alignOrder ≤ large → chains large = []) :
    (b.allocate order align).Answers (.error .outOfMemory, b) := by
  have own : order < Order.count := (le_max_left _ _).trans_lt small
  rw [allocate, if_neg (Nat.not_le.mpr own)]
  refine .bind (.lift aligned) ?_
  simp only [if_neg (Nat.not_le.mpr small)]
  cases answer : b.smallestFreeOrder? (max order alignOrder) with
  | none => exact .pure _
  | some found =>
      obtain ⟨_, least, some, _⟩ := smallestFreeOrder?_some listed answer
      exact absurd (empty found least) some

/-- A free block that is large enough and aligned enough is all that an allocation needs. What it gets
is the lowest part of a smallest one. -/
theorem Reading.allocate_some (reading : Reading R) (rested : b.Rested R live)
    (known : R b chains live ∅) (aligned : Order.ofAlignment align = .ok (some alignOrder))
    (small : max order alignOrder < Order.count) {large : Nat} (least : max order alignOrder ≤ large)
    (some : chains large ≠ []) :
    ∃ x after, (b.allocate order align).Answers (.ok x.addr, after) ∧ x.order = order ∧
      2 ^ (alignOrder + pageShift) ∣ x.addr ∧ (after.Rested R (x :: live) ∧ after.range = b.range) ∧
      ∃ y ∈ listedBlocks b.firstFrame chains, y.start = x.start ∧ max order alignOrder ≤ y.order ∧
        ∀ z ∈ listedBlocks b.firstFrame chains, max order alignOrder ≤ z.order → y.order ≤ z.order := by
  have own : order < Order.count := (le_max_left _ _).trans_lt small
  have listed := (reading.partition known).listed
  cases answer : b.smallestFreeOrder? (max order alignOrder) with
  | none => exact absurd (smallestFreeOrder?_none listed answer large least) some
  | some found =>
      obtain ⟨_, least, some, smaller⟩ := smallestFreeOrder?_some listed answer
      obtain ⟨index, rest, spelled⟩ := List.exists_cons_of_ne_nil some
      obtain ⟨after, taken, divides, result⟩ := reading.take align rested known spelled
        ((le_max_left _ _).trans least) ((le_max_right _ _).trans least)
      have member : index ∈ chains found := spelled ▸ List.mem_cons_self ..
      refine ⟨⟨b.firstFrame + index, order⟩, after, ?_, rfl, divides, result,
        ⟨b.firstFrame + index, found⟩, ⟨index, member, rfl⟩, rfl, least, fun z free enough => ?_⟩
      · rw [allocate, if_neg (Nat.not_le.mpr own)]
        refine .bind (.lift aligned) ?_
        simp only [if_neg (Nat.not_le.mpr small), answer]
        exact taken
      · by_contra less
        obtain ⟨place, inChain, _⟩ := free
        rw [smaller z.order enough (Nat.lt_of_not_le less)] at inChain
        cases inChain

/-- Whether an allocation succeeds or is refused, nothing but the block it hands out becomes live. -/
theorem Reading.allocate (reading : Reading R) (rested : b.Rested R live) (order align : Nat) :
    (∃ x after, (b.allocate order align).Answers (.ok x.addr, after) ∧ x.order = order ∧
      2 ^ Nat.clog 2 align ∣ x.addr ∧ after.Rested R (x :: live) ∧ after.range = b.range) ∨
    ∃ reason, (b.allocate order align).Answers (.error reason, b) := by
  obtain ⟨chains, known⟩ := rested.blocks
  by_cases large : Order.count ≤ order
  · exact .inr ⟨_, allocate_beyond b align large⟩
  by_cases word : align ≤ 2 ^ 63
  · have aligned := Order.ofAlignment_eq align
    rw [if_pos word] at aligned
    by_cases beyond : Order.count ≤ max order (Nat.clog 2 align - pageShift)
    · exact .inr ⟨_, allocate_overaligned b (Nat.lt_of_not_le large) aligned beyond⟩
    by_cases empty : ∀ large, max order (Nat.clog 2 align - pageShift) ≤ large → chains large = []
    · exact .inr ⟨_, allocate_exhausted (reading.partition known).listed aligned
        (Nat.lt_of_not_le beyond) empty⟩
    · push Not at empty
      obtain ⟨large, least, some⟩ := empty
      obtain ⟨x, after, answers, sameOrder, divides, result, _⟩ :=
        reading.allocate_some rested known aligned (Nat.lt_of_not_le beyond) least some
      exact .inl ⟨x, after, answers, sameOrder, (pow_dvd_pow 2 (by omega)).trans divides, result⟩
  · have unalignable := Order.ofAlignment_eq align
    rw [if_neg word] at unalignable
    exact .inr ⟨_, allocate_unalignable b (Nat.lt_of_not_le large) unalignable⟩

theorem allocate_settled (settled : b.Settled live) (order align : Nat) :
    (∃ x after, (b.allocate order align).outcome = .ok (.ok x.addr, after) ∧ x.order = order ∧
      2 ^ Nat.clog 2 align ∣ x.addr ∧ after.Settled (x :: live) ∧ after.range = b.range) ∨
    ∃ reason, (b.allocate order align).outcome = .ok (.error reason, b) := by
  rcases Layout.reading.allocate (settled_iff.mp settled) order align with
    ⟨x, after, answers, sameOrder, divides, rested, range⟩ | ⟨reason, answers⟩
  · exact .inl ⟨x, after, answers.outcome, sameOrder, divides, settled_iff.mpr rested, range⟩
  · exact .inr ⟨reason, answers.outcome⟩

end ZonedMemory.Buddy
