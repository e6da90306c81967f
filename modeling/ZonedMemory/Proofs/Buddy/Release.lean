import ZonedMemory.Buddy.Release
import ZonedMemory.Proofs.Buddy.Layout

namespace ZonedMemory.Buddy

/-!
Freeing. Merging believes a record only as far as the list bears it out: a buddy is joined when it is
tagged as free and its list has it. What comes of a free is therefore read off the lists, and what it
answers off the record of the page alone.
-/

variable {b released : Buddy} {chains : Nat → List Nat} {live : List Block} {x : Block}
  {index order addr : Nat} {R : Buddy → (Nat → List Nat) → List Block → Set Block → Prop}

theorem pageText_eq (placed : b.Placed) (bound : index < b.pages.size) :
    ∃ text, BuddyEvent.pageText b.firstFrame index = .ok text := by
  have words := placed.frames_word
  have few := placed.frames_lt
  have frame : Word.add b.firstFrame index = .ok (b.firstFrame + index) := Word.add_eq (by omega)
  have start : Frame.start (b.firstFrame + index) = .ok ((b.firstFrame + index) * pageSize) :=
    Frame.start_eq (lt_of_le_of_lt (Nat.mul_le_mul_right _ (by omega)) words)
  refine ⟨Text.hex ((b.firstFrame + index) * pageSize), ?_⟩
  simp only [BuddyEvent.pageText, frame, start, ok_bind, pure_eq_ok]

/-- The buddy of a block has an index when the whole of it lies in the range. -/
theorem buddyIndex?_eq (placed : b.Placed) (bound : index < b.pages.size)
    (small : order ≤ Order.top) :
    ∃ found, b.buddyIndex? index order = .ok found ∧
      ∀ other, found = some other ↔
        Block.buddy ⟨b.firstFrame + index, order⟩ = ⟨b.firstFrame + other, order⟩ ∧
          other + 2 ^ order ≤ b.pages.size := by
  have few := placed.frames_lt
  have length : 2 ^ order ≤ 2 ^ Order.top := Nat.pow_le_pow_right (by decide) small
  have short : 2 ^ Order.top < 2 ^ 52 := by decide
  have shift : Word.shiftLeft 1 order = .ok (2 ^ order) :=
    Word.shiftLeft_one (lt_of_le_of_lt small (by decide))
  have frame : Word.add b.firstFrame index = .ok (b.firstFrame + index) := Word.add_eq (by omega)
  obtain ⟨flipped, same⟩ : ∃ flipped, (b.firstFrame + index) ^^^ 2 ^ order = flipped := ⟨_, rfl⟩
  have near : flipped < 2 ^ 52 := same ▸ Nat.xor_lt_two_pow (by omega) (by omega)
  have buddy : Frame.buddy (b.firstFrame + index) order = .ok flipped := by
    simp only [Frame.buddy, shift, ok_bind, pure_eq_ok, same]
  have pair : ∀ other, Block.buddy ⟨b.firstFrame + index, order⟩ = ⟨b.firstFrame + other, order⟩ ↔
      flipped = b.firstFrame + other := fun other => by simp [Block.buddy, Block.pages, same]
  simp only [buddyIndex?, frame, buddy, shift, ok_bind, pair]
  by_cases before : flipped < b.firstFrame
  · refine ⟨none, by simp [before], fun other => ?_⟩
    simp only [reduceCtorEq, false_iff, not_and]
    omega
  · have offset := Word.sub_eq (Nat.le_of_not_lt before)
    have sum := Word.add_eq (a := flipped - b.firstFrame) (b := 2 ^ order) (by omega)
    simp only [if_neg before, offset, sum, ok_bind, pure_eq_ok]
    refine ⟨_, rfl, fun other => ?_⟩
    split
    · simp only [reduceCtorEq, false_iff, not_and]
      omega
    · rw [Option.some_inj]
      omega

/-- Merging keeps what joining two blocks keeps, and goes on for as long as the buddy is in the range,
tagged as free and on its list. -/
theorem mergeUp_keeps {K : Buddy → (Nat → List Nat) → Nat → Nat → Prop} (steps : Nat)
    (known : ∀ {b chains index order}, K b chains index order →
      b.Placed ∧ b.Listed chains ∧ index < b.pages.size)
    (join : ∀ {b cut chains index other order}, K b chains index order → order < Order.top →
      other ∈ chains order →
      Block.buddy ⟨b.firstFrame + index, order⟩ = ⟨b.firstFrame + other, order⟩ →
      SameExtent b cut → cut.stateAt? = b.stateAt? →
      cut.Listed (Function.update chains order ((chains order).erase other)) →
      K (cut.retagged (max index other) .tail)
        (Function.update chains order ((chains order).erase other)) (min index other) (order + 1))
    (inHand : K b chains index (Order.top - steps)) (enough : steps ≤ Order.top) :
    ∃ lower order after chains',
      (mergeUp steps index b).Answers (lower, order, after) ∧ SameExtent b after ∧
      K after chains' lower order ∧ order ≤ Order.top ∧
      (order < Order.top → ∀ other ∈ chains' order, other + 2 ^ order ≤ after.pages.size →
        Block.buddy ⟨after.firstFrame + lower, order⟩ = ⟨after.firstFrame + other, order⟩ →
        after.stateAt? (after.firstFrame + other) ≠ some (.free order)) := by
  induction steps generalizing b index chains with
  | zero =>
      exact ⟨index, Order.top, b, chains, .pure _, .refl b, inHand, le_rfl,
        fun less => absurd less (lt_irrefl _)⟩
  | succ steps ih =>
      generalize found : Order.top - (steps + 1) = order at inHand
      have grown : Order.top - steps = order + 1 := by omega
      have small : order < Order.top := by omega
      obtain ⟨placed, listed, bound⟩ := known inHand
      obtain ⟨answer, computed, place⟩ := buddyIndex?_eq placed bound small.le
      simp only [mergeUp, found]
      cases answer with
      | none =>
          refine ⟨index, order, b, chains, .bind (.lift computed) (.pure _), .refl b, inHand, small.le, ?_⟩
          intro _ other _ inside buddy
          cases (place other).mpr ⟨buddy, inside⟩
      | some other =>
          obtain ⟨buddy, inside⟩ := (place other).mp rfl
          have positive := Nat.two_pow_pos order
          have otherBound : other < b.pages.size := by omega
          have only : ∀ {again}, Block.buddy ⟨b.firstFrame + index, order⟩ =
              ⟨b.firstFrame + again, order⟩ → again = other := by
            intro again same
            simpa using congrArg Block.start (same.symm.trans buddy)
          by_cases tagged : b.pages[other].state = .free order
          · by_cases member : other ∈ chains order
            · obtain ⟨cut, unlinked, extent, states, listed⟩ := unlink_listed listed placed.few member
              have joined := join inHand small member buddy extent states listed
              have tail := retagged_extent cut (max index other) .tail
              have upper : max index other < cut.pages.size := by
                rw [extent.size]
                omega
              obtain ⟨text, line⟩ := pageText_eq (placed.extent extent) (lt_of_le_of_lt min_le_max upper)
              rw [← grown] at joined
              obtain ⟨lower, lastOrder, after, last, merged, lastExtent, result⟩ := ih joined (by omega)
              refine ⟨lower, lastOrder, after, last, ?_, (extent.trans tail).trans lastExtent, result⟩
              refine .bind (.lift computed) (.bind (.lift (record_eq otherBound)) ?_)
              rw [if_pos tagged]
              refine .bind (.lift unlinked) (.bind (.lift (tag_eq upper)) (.bind (.report ?_) merged))
              simp only [Event.text, BuddyEvent.text, tail.firstFrame, line, ok_bind]
              exact ⟨_, rfl⟩
            · obtain ⟨text, line⟩ := pageText_eq placed otherBound
              refine ⟨index, order, b, chains, ?_, .refl b, inHand, small.le, ?_⟩
              · refine .bind (.lift computed) (.bind (.lift (record_eq otherBound)) ?_)
                rw [if_pos tagged]
                have absent := unlink_absent listed (Nat.lt_succ_of_lt small) member
                refine .bind (.lift absent) (.bind (.report ?_) (.pure _))
                simp only [Event.text, BuddyEvent.text, line, ok_bind]
                exact ⟨_, rfl⟩
              · intro _ again free _ same
                obtain rfl := only same
                exact absurd free member
          · refine ⟨index, order, b, chains, ?_, .refl b, inHand, small.le, ?_⟩
            · refine .bind (.lift computed) (.bind (.lift (record_eq otherBound)) ?_)
              rw [if_neg tagged]
              exact .pure _
            · intro _ again _ _ same
              obtain rfl := only same
              rw [record_state otherBound, Ne, Option.some_inj]
              exact tagged

/-- One round of merging: the free buddy is taken off its list and joined with the block in hand. -/
theorem Reading.join {cut : Buddy} {other : Nat} (reading : Reading R)
    (inHand : R b chains live {⟨b.firstFrame + index, order⟩}) (small : order < Order.top)
    (free : other ∈ chains order)
    (start : Block.buddy ⟨b.firstFrame + index, order⟩ = ⟨b.firstFrame + other, order⟩)
    (extent : SameExtent b cut) (states : cut.stateAt? = b.stateAt?)
    (listed : cut.Listed (Function.update chains order ((chains order).erase other))) :
    R (cut.retagged (max index other) .tail)
      (Function.update chains order ((chains order).erase other)) live
      {⟨(cut.retagged (max index other) .tail).firstFrame + min index other, order + 1⟩} := by
  have parts := reading.partition inHand
  have both := reading.hold_free inHand free extent states listed
  rw [← start, Set.pair_comm] at both
  have bound : max index other < cut.pages.size := by
    have := parts.index_lt (.inl rfl) rfl
    have := parts.listed.lt_size free
    have := extent.size
    omega
  have upper : cut.firstFrame + max index other =
      max (b.firstFrame + index) (Block.buddy ⟨b.firstFrame + index, order⟩).start := by
    rw [start, extent.firstFrame, Nat.add_max_add_left]
  have lower : Block.parent ⟨b.firstFrame + index, order⟩ =
      ⟨(cut.retagged (max index other) .tail).firstFrame + min index other, order + 1⟩ := by
    rw [Block.parent, start, (retagged_extent ..).firstFrame, extent.firstFrame,
      ← Nat.add_min_add_left]
  rw [← lower]
  exact reading.join_held both small bound upper

/-- Whatever a page is taken for, putting it back as a block comes to an end. -/
theorem release_answers (placed : b.Placed) (listed : b.Listed chains) (bound : index < b.pages.size)
    (small : order ≤ Order.top) :
    ∃ after, (b.release index order).Answers after ∧ SameExtent b after := by
  have steps : Order.top - (Order.top - order) = order := by omega
  obtain ⟨lower, lastOrder, merged, chains', answers, extent, ⟨placed, listed, bound⟩, least, _⟩ :=
    mergeUp_keeps (K := fun b chains index _ => b.Placed ∧ b.Listed chains ∧ index < b.pages.size)
      (Order.top - order) (fun held => held)
      (fun held _ member _ extent _ listed => by
        have tail := retagged_extent
        obtain ⟨placed, _, bound⟩ := held
        refine ⟨(placed.extent extent).extent (retagged_extent ..), listed.retagged _ _, ?_⟩
        rw [(retagged_extent ..).size, extent.size]
        omega)
      ⟨placed, listed, bound⟩ (Nat.sub_le _ _)
  have tagged := retagged_extent merged lower (.free lastOrder)
  have inside : lower < (merged.retagged lower (.free lastOrder)).pages.size := tagged.size ▸ bound
  have pushed := push_eq (listed.retagged lower (.free lastOrder)) (tagged.size ▸ placed.few) inside
    (Nat.lt_succ_of_le least)
  exact ⟨_, .bind answers (.bind (.lift (tag_eq bound)) (.lift pushed)),
    extent.trans (tagged.trans (relinked_extent.trans relisted_extent))⟩

/-- A block in the hands goes back to the lists, as far as it can be told from them. -/
theorem Reading.release (reading : Reading R)
    (inHand : R b chains live {⟨b.firstFrame + index, order⟩}) :
    ∃ after chains', (b.release index order).Answers after ∧ SameExtent b after ∧
      R after chains' live ∅ := by
  have small : order ≤ Order.top := (reading.partition inHand).tiled.small _ (.inl rfl)
  have whole : R b chains live {⟨b.firstFrame + index, Order.top - (Order.top - order)⟩} := by
    rwa [Nat.sub_sub_self small]
  obtain ⟨lower, lastOrder, merged, chains', answers, extent, inHand, _, lone⟩ :=
    mergeUp_keeps (K := fun b chains index order => R b chains live {⟨b.firstFrame + index, order⟩})
      (Order.top - order) (fun held => by
        have parts := reading.partition held
        exact ⟨parts.placed, parts.listed, parts.index_lt (.inl rfl) rfl⟩)
      reading.join whole (Nat.sub_le _ _)
  have parts := reading.partition inHand
  have bound := parts.index_lt (.inl rfl) rfl
  rw [← insert_empty_eq] at inHand
  obtain ⟨after, pushed, kept, settled⟩ := reading.give_free inHand (Set.notMem_empty _) rfl
    fun less free => by
      obtain ⟨other, member, start⟩ := free
      have same : Block.buddy ⟨merged.firstFrame + lower, lastOrder⟩ =
          ⟨merged.firstFrame + other, lastOrder⟩ := congrArg (Block.mk · lastOrder) start
      rw [start]
      refine lone less other member ?_ same
      have inside := (parts.tiled.inside ⟨merged.firstFrame + other, lastOrder⟩
        (.inr (.inl ⟨other, member, rfl⟩))).2
      simp only [Block.stop, Block.pages] at inside
      omega
  exact ⟨after, _, .bind answers (.bind (.lift (tag_eq bound)) (.lift pushed)), extent.trans kept,
    settled⟩

theorem indexOf?_eq (placed : b.Placed) (addr : Nat) :
    b.indexOf? addr = .ok (if b.firstFrame ≤ addr / pageSize ∧
        addr / pageSize < b.firstFrame + b.pages.size then
      some (addr / pageSize - b.firstFrame) else none) := by
  have lower : b.range.base ≤ addr ↔ b.firstFrame ≤ addr / pageSize := by
    rw [placed.base, Nat.le_div_iff_mul_le pageSize_pos]
  have upper : addr < b.range.base + b.range.size ↔
      addr / pageSize < b.firstFrame + b.pages.size := by
    rw [placed.base, placed.size, ← Nat.add_mul, Nat.div_lt_iff_lt_mul pageSize_pos]
  have stop : b.range.stop = .ok (b.range.base + b.range.size) := Word.add_eq placed.word
  simp only [indexOf?, Range.contains, lower, stop, ok_bind, pure_eq_ok]
  by_cases before : b.firstFrame ≤ addr / pageSize
  · simp only [before, if_true, ok_bind, upper, true_and, decide_eq_true_eq]
    split
    · simp only [Frame.ofAddress, Word.sub_eq before, ok_bind]
    · rfl
  · simp [before]

theorem blockState?_eq (placed : b.Placed) (addr : Nat) :
    b.blockState? addr = .ok (b.stateAt? (addr / pageSize)) := by
  simp only [blockState?, indexOf?_eq placed, ok_bind]
  by_cases inside : b.firstFrame ≤ addr / pageSize ∧ addr / pageSize < b.firstFrame + b.pages.size
  · have bound : addr / pageSize - b.firstFrame < b.pages.size := by omega
    have frame : b.firstFrame + (addr / pageSize - b.firstFrame) = addr / pageSize := by omega
    have state := record_state bound
    rw [frame] at state
    simp only [if_pos inside, record_eq bound, ok_bind, state, pure_eq_ok]
  · simp only [if_neg inside, stateAt?_eq_none inside, pure_eq_ok]

/-- What the record of a page says of a block that is to be freed there. -/
theorem allocatedOrder_eq (placed : b.Placed) (bound : index < b.pages.size) :
    b.allocatedOrder index =
      .ok (match b.pages[index].state with
        | .allocated order =>
            if order < Order.count ∧ index + 2 ^ order ≤ b.pages.size then .ok order
            else .error (.corruptOrder order)
        | .free order => .error (if Order.count ≤ order then .corruptOrder order else .doubleFree)
        | .tail => .error .notBlockStart) := by
  have few := placed.frames_lt
  simp only [allocatedOrder, record_eq bound, ok_bind]
  cases b.pages[index].state with
  | tail => rfl
  | free order => rfl
  | allocated order =>
      by_cases large : Order.count ≤ order
      · simp only [if_pos large, Nat.not_lt.mpr large, false_and, if_false, pure_eq_ok]
      · have shift : Word.shiftLeft 1 order = .ok (2 ^ order) :=
          Word.shiftLeft_one ((Nat.lt_of_not_le large).trans (by decide))
        have length : 2 ^ order ≤ 2 ^ Order.count :=
          Nat.pow_le_pow_right (by decide) (Nat.le_of_not_le large)
        have short : 2 ^ Order.count < 2 ^ 52 := by decide
        have sum := Word.add_eq (a := index) (b := 2 ^ order) (by omega)
        simp only [if_neg large, Nat.lt_of_not_le large, true_and, shift, sum, ok_bind, pure_eq_ok]
        by_cases inside : index + 2 ^ order ≤ b.pages.size
        · rw [if_neg (by omega), if_pos inside]
        · rw [if_pos (by omega), if_neg inside]

/-- The record of the page at an address says that an allocated block starts there. -/
structure Freeable (b : Buddy) (addr index order : Nat) : Prop where
  page : addr = (b.firstFrame + index) * pageSize
  state : b.stateAt? (b.firstFrame + index) = some (.allocated order)
  small : order < Order.count
  inside : index + 2 ^ order ≤ b.pages.size

theorem Freeable.free (freeable : b.Freeable addr index order) (placed : b.Placed)
    (answers : (b.release index order).Answers released)
    (room : released.freePages + 2 ^ order < 2 ^ 64) :
    (b.free addr).Answers
      (.ok (2 ^ order), { released with freePages := released.freePages + 2 ^ order }) := by
  obtain ⟨rfl, state, small, inside⟩ := freeable
  have bound : index < b.pages.size := by
    have := Nat.two_pow_pos order
    omega
  have aligned : Address.isAligned ((b.firstFrame + index) * pageSize) pageSize = .ok true := by
    rw [Address.isAligned_page, decide_eq_true (Nat.dvd_mul_left _ _)]
  have found : b.indexOf? ((b.firstFrame + index) * pageSize) = .ok (some index) := by
    rw [indexOf?_eq placed, Nat.mul_div_cancel _ pageSize_pos, if_pos (by omega),
      Nat.add_sub_cancel_left]
  have read : b.allocatedOrder index = .ok (.ok order) := by
    rw [record_state bound, Option.some_inj] at state
    rw [allocatedOrder_eq placed bound, state]
    simp only [small, inside, true_and, if_true]
  have shift : Word.shiftLeft 1 order = .ok (2 ^ order) := Word.shiftLeft_one (small.trans (by decide))
  refine .bind (.lift aligned) (.bind (.lift found) (.bind (.lift read) (.bind answers ?_)))
  exact .bind (.lift shift) (.bind (.lift (Word.add_eq room)) (.bind (.report ⟨_, rfl⟩) (.pure _)))

/-- A free is refused, and changes nothing, unless the record says that a block starts there. -/
theorem free_unless (placed : b.Placed) (dead : ∀ index order, ¬ b.Freeable addr index order) :
    ∃ reason, (b.free addr).Answers (.error reason, b) := by
  by_cases aligned : pageSize ∣ addr
  · have page : Address.isAligned addr pageSize = .ok true := by
      rw [Address.isAligned_page, decide_eq_true aligned]
    by_cases inside : b.firstFrame ≤ addr / pageSize ∧ addr / pageSize < b.firstFrame + b.pages.size
    · have bound : addr / pageSize - b.firstFrame < b.pages.size := by omega
      have frame : b.firstFrame + (addr / pageSize - b.firstFrame) = addr / pageSize := by omega
      have start : addr = (b.firstFrame + (addr / pageSize - b.firstFrame)) * pageSize := by
        rw [frame, Nat.div_mul_cancel aligned]
      have state := record_state bound
      have found := indexOf?_eq placed addr
      rw [if_pos inside] at found
      have refused : ∃ reason, b.allocatedOrder (addr / pageSize - b.firstFrame) =
          .ok (.error reason) := by
        rw [allocatedOrder_eq placed bound]
        cases read : b.pages[addr / pageSize - b.firstFrame].state with
        | tail => exact ⟨_, rfl⟩
        | free order => exact ⟨_, rfl⟩
        | allocated order =>
            rw [read] at state
            exact ⟨_, congrArg _ (if_neg fun fits => dead _ order ⟨start, state, fits.1, fits.2⟩)⟩
      obtain ⟨reason, refused⟩ := refused
      exact ⟨reason, .bind (.lift page) (.bind (.lift found) (.bind (.lift refused) (.pure _)))⟩
    · have unknown := indexOf?_eq placed addr
      rw [if_neg inside] at unknown
      exact ⟨_, .bind (.lift page) (.bind (.lift unknown) (.pure _))⟩
  · have odd : Address.isAligned addr pageSize = .ok false := by
      rw [Address.isAligned_page, decide_eq_false aligned]
    exact ⟨_, .bind (.lift odd) (.pure _)⟩

/-- What freeing an address answers when no live block starts there. -/
def refusal (b : Buddy) (addr : Nat) : FreeError :=
  if pageSize ∣ addr then
    match b.stateAt? (addr / pageSize) with
    | none => .unknownAddress
    | some (.free _) => .doubleFree
    | some _ => .notBlockStart
  else
    .misaligned

theorem free_refused (layout : b.Layout chains live ∅) (dead : ∀ x ∈ live, x.addr ≠ addr) :
    (b.free addr).outcome = .ok (.error (b.refusal addr), b) := by
  simp only [free, Traced.outcome_bind, Traced.outcome_lift, Address.isAligned_page, ok_bind,
    refusal, decide_eq_true_eq]
  by_cases aligned : pageSize ∣ addr
  · simp only [if_pos aligned, Traced.outcome_bind, Traced.outcome_lift,
      indexOf?_eq layout.placed, ok_bind]
    by_cases inside : b.firstFrame ≤ addr / pageSize ∧ addr / pageSize < b.firstFrame + b.pages.size
    · have frame : b.firstFrame + (addr / pageSize - b.firstFrame) = addr / pageSize := by omega
      have bound : addr / pageSize - b.firstFrame < b.pages.size := by omega
      have state := record_state bound
      rw [frame] at state
      simp only [if_pos inside, Traced.outcome_bind, Traced.outcome_lift,
        allocatedOrder_eq layout.placed bound, ok_bind, state]
      cases found : b.pages[addr / pageSize - b.firstFrame].state with
      | tail => rfl
      | free order =>
          rw [found] at state
          have member := (layout.free_iff _ order (by simp)).mp state
          have small : order < Order.count :=
            Nat.lt_succ_of_le (layout.tiled.small _ (.inr (.inl member)))
          simp only [Nat.not_le.mpr small, if_false]
          rfl
      | allocated order =>
          rw [found] at state
          have member := (layout.live_iff _ order (by simp)).mp state
          have equal : Block.addr ⟨addr / pageSize, order⟩ = addr := Nat.div_mul_cancel aligned
          exact absurd equal (dead _ member)
    · simp only [if_neg inside, stateAt?_eq_none inside, Traced.outcome_pure]
  · simp only [if_neg aligned, Traced.outcome_pure]

/-- A live block is freed when the record of its first page still says so. -/
theorem Reading.free (reading : Reading R) (rested : b.Rested R live) (member : x ∈ live)
    (state : b.stateAt? x.start = some (.allocated x.order)) :
    ∃ after, (b.free x.addr).Answers (.ok x.pages, after) ∧ after.Rested R (live.erase x) ∧
      after.range = b.range := by
  obtain ⟨⟨chains, known⟩, accounted⟩ := rested
  have parts := reading.partition known
  have few := parts.placed.frames_lt
  obtain ⟨index, inside, start⟩ := parts.indexed (.inr (.inr member))
  have inHand := reading.hold_live known member
  have block : x = ⟨b.firstFrame + index, x.order⟩ := by rw [← start]
  rw [insert_empty_eq, block] at inHand
  obtain ⟨released, chains', answers, extent, after⟩ := reading.release inHand
  rw [← block] at after
  have sum := (List.perm_cons_erase member).map Block.pages |>.sum_eq
  rw [List.map_cons, List.sum_cons] at sum
  have count : released.freePages + x.pages + ((live.erase x).map Block.pages).sum =
      b.pages.size := by
    rw [extent.freePages]
    omega
  have freeable : b.Freeable x.addr index x.order :=
    ⟨by rw [Block.addr, start], start ▸ state,
      Nat.lt_succ_of_le (parts.tiled.small x (.inr (.inr member))), inside⟩
  refine ⟨_, freeable.free parts.placed answers ?_,
    ⟨⟨chains', reading.withFreePages _ after⟩, ?_⟩, extent.range⟩
  · change released.freePages + x.pages < _
    omega
  · change released.freePages + x.pages + _ = released.pages.size
    rw [extent.size]
    exact count

theorem free_live (settled : b.Settled live) (member : x ∈ live) :
    ∃ after, (b.free x.addr).outcome = .ok (.ok x.pages, after) ∧ after.Settled (live.erase x) ∧
      after.range = b.range := by
  obtain ⟨⟨chains, layout⟩, _⟩ := id settled
  obtain ⟨after, answers, rested, range⟩ := Layout.reading.free (settled_iff.mp settled) member
    ((layout.live_iff _ _ (by simp)).mpr member)
  exact ⟨after, answers.outcome, settled_iff.mpr rested, range⟩

end ZonedMemory.Buddy
