import ZonedMemory.Proofs.Buddy.Run

namespace ZonedMemory.Buddy

/-!
A buddy does not fail. Two of its branches are there in case its records and its lists disagree: an
allocation gives back a block that lacks the alignment asked for, and a free leaves a buddy alone
that is tagged as free when no list has it. Each reports what it found, and no call comes to such a
report, since between two calls the records and the lists agree.
-/

/-- Any report but one of a disagreement between the records and the lists. -/
def Regular : Event → Prop
  | .buddy (.missedAlignment ..) | .buddy (.missing ..) => False
  | _ => True

/-- A call comes to an answer, whoever reads along, and finds no disagreement on its way. -/
structure Proceeds {α : Type} (call : Traced α) : Prop where
  completes : call.Completes
  regular : call.Reports Regular

/-- No call fails on a buddy, nor does a step that calls are made of. -/
structure Unfailing (b : Buddy) : Prop where
  allocates : ∀ order align, Proceeds (b.allocate order align)
  frees : ∀ addr, Proceeds (b.free addr)
  /-- A list that counts a block has one to take. -/
  pops : ∀ order, 0 < b.freeBlocks order → ∃ index after, b.pop order = .ok (some index, after)
  /-- The links of a list lead through the free blocks of its order, as many as it counts. -/
  linked : ∀ order (bound : order < Order.count), ∃ chain : List Nat,
    b.Segment b.lists[order].head chain none ∧ b.lists[order].count = chain.length ∧
      ∀ index, index ∈ chain ↔ b.stateAt? (b.firstFrame + index) = some (.free order)
  /-- A link can name every page: it is not cut short. -/
  links : ∀ page < b.pages.size, ∀ target < b.pages.size,
    ∃ after, b.link page (some target) = .ok after ∧ after.nextOf page = some target

variable {b after : Buddy} {chains : Nat → List Nat} {live : List Block} {range : Range}
  {index order found align alignOrder addr records : Nat}

theorem splitDown_regular (index order found : Nat) (b : Buddy) :
    (splitDown index order found b).Reports Regular := by
  induction found generalizing b with
  | zero => exact .pure b
  | succ half ih =>
      unfold splitDown
      split
      · exact .pure b
      · exact .compute fun _ _ => .compute fun _ _ => .compute fun _ _ => .compute fun given _ =>
          (Traced.Reports.report trivial).bind fun _ _ => ih given

/-- Where the records and the lists agree, a buddy that is tagged as free is on its list. -/
theorem Layout.buddy_listed {other : Nat} (layout : b.Layout chains live {⟨b.firstFrame + index, order⟩})
    (pair : Block.buddy ⟨b.firstFrame + index, order⟩ = ⟨b.firstFrame + other, order⟩)
    (free : b.stateAt? (b.firstFrame + other) = some (.free order)) : other ∈ chains order := by
  have natural : Block.Natural ⟨b.firstFrame + index, order⟩ := layout.tiled.natural _ (.inl rfl)
  have elsewhere : ∀ x ∈ ({⟨b.firstFrame + index, order⟩} : Set Block), x.start ≠ b.firstFrame + other := by
    intro x inHand same
    subst inHand
    have apart := natural.buddy_apart
    rw [pair, ← same] at apart
    exact Block.not_apart_self _ apart
  obtain ⟨page, member, equal⟩ := (layout.free_iff _ _ elsewhere).mp free
  rwa [Nat.add_left_cancel equal]

/-- One round of merging: the list has the free buddy, and the joined block is in the hands. -/
theorem Layout.merge_round {other : Nat} (layout : b.Layout chains live {⟨b.firstFrame + index, order⟩})
    (small : order < Order.top)
    (pair : Block.buddy ⟨b.firstFrame + index, order⟩ = ⟨b.firstFrame + other, order⟩)
    (free : b.stateAt? (b.firstFrame + other) = some (.free order)) :
    ∃ cut joined rest, b.unlink other order = .ok (true, cut) ∧
      cut.tag (max index other) .tail = .ok joined ∧
      joined.Layout rest live {⟨joined.firstFrame + min index other, order + 1⟩} := by
  have member := layout.buddy_listed pair free
  obtain ⟨cut, unlinked, extent, states, listed⟩ :=
    unlink_listed layout.listed layout.placed.few member
  have upper : max index other < cut.pages.size := by
    have := layout.partition.index_lt (.inl rfl) rfl
    have := layout.listed.lt_size member
    have := extent.size
    omega
  exact ⟨cut, cut.retagged (max index other) .tail, _, unlinked, tag_eq upper,
    Layout.reading.join layout small member pair extent states listed⟩

/-- A block that is given back for its alignment is not what the caller gets. -/
theorem take_regular (answer : (b.take order align alignOrder found).outcome = .ok (.ok addr, after)) :
    (b.take order align alignOrder found).Reports Regular := by
  apply Traced.Reports.compute_of answer
  intro popped answer
  obtain ⟨index, rest⟩ := popped
  cases index with
  | none => exact .pure _
  | some index =>
      apply Traced.Reports.bind_of answer (splitDown_regular ..)
      intro cut answer
      refine .compute_of answer fun tagged answer => .compute_of answer fun pages answer => ?_
      refine .compute_of answer fun freePages answer => .compute_of answer fun start answer => ?_
      revert answer
      dsimp only
      split
      all_goals intro answer
      on_goal 1 =>
        refine .compute_of answer fun shift answer => .compute_of answer fun bytes answer => ?_
        refine .compute_of answer fun aligned answer => .bind_of answer (.pure _) ?_
      on_goal 2 => apply Traced.Reports.bind_of answer (.pure true)
      all_goals
        intro aligned answer
        cases aligned with
        | true => exact (Traced.Reports.report trivial).bind fun _ _ => .pure _
        | false =>
            -- the block is given back and the answer is an error
            obtain ⟨_, _, answer⟩ := Traced.bind_eq_ok.mp answer
            obtain ⟨_, _, answer⟩ := Traced.bind_eq_ok.mp answer
            obtain ⟨_, _, answer⟩ := Traced.bind_eq_ok.mp answer
            cases answer

theorem mergeUp_regular (steps : Nat)
    (layout : b.Layout chains live {⟨b.firstFrame + index, Order.top - steps⟩})
    (enough : steps ≤ Order.top) : (mergeUp steps index b).Reports Regular := by
  induction steps generalizing b index chains with
  | zero => exact .pure _
  | succ steps ih =>
      generalize start : Order.top - (steps + 1) = order at layout
      have grown : Order.top - steps = order + 1 := by omega
      have small : order < Order.top := by omega
      obtain ⟨answer, computed, place⟩ :=
        buddyIndex?_eq layout.placed (layout.partition.index_lt (.inl rfl) rfl) small.le
      rw [mergeUp, start]
      apply Traced.Reports.compute
      intro found known
      obtain rfl := Except.ok.inj (computed.symm.trans known)
      cases answer with
      | none => exact .pure _
      | some other =>
          obtain ⟨pair, inside⟩ := (place other).mp rfl
          apply Traced.Reports.compute
          intro record read
          split
          · rename_i tagged
            have bound : other < b.pages.size := by
              have := Nat.two_pow_pos order
              omega
            have free := record_state bound
            rw [Except.ok.inj ((record_eq bound).symm.trans read), tagged] at free
            obtain ⟨cut, joined, rest, unlinked, written, whole⟩ := layout.merge_round small pair free
            rw [← grown] at whole
            apply Traced.Reports.compute
            intro result known
            obtain rfl := Except.ok.inj (unlinked.symm.trans known)
            apply Traced.Reports.compute
            intro after known
            obtain rfl := Except.ok.inj (written.symm.trans known)
            exact (Traced.Reports.report trivial).bind fun _ _ => ih whole (by omega)
          · exact .pure _

theorem release_regular (layout : b.Layout chains live {⟨b.firstFrame + index, order⟩}) :
    (b.release index order).Reports Regular := by
  have small : order ≤ Order.top := layout.tiled.small _ (.inl rfl)
  apply (mergeUp_regular _ (by rwa [Nat.sub_sub_self small]) (Nat.sub_le _ _)).bind
  intro merged _
  exact .compute fun tagged _ => .lift _

theorem Placed.index_lt (placed : b.Placed) (found : b.indexOf? addr = .ok (some index)) :
    index < b.pages.size := by
  rw [indexOf?_eq placed] at found
  split at found
  · obtain rfl := Option.some.inj (Except.ok.inj found)
    omega
  · cases found

theorem Placed.allocated_of_order (placed : b.Placed) (bound : index < b.pages.size)
    (read : b.allocatedOrder index = .ok (.ok order)) :
    b.stateAt? (b.firstFrame + index) = some (.allocated order) := by
  rw [record_state bound]
  rw [allocatedOrder_eq placed bound] at read
  cases state : b.pages[index].state with
  | tail => simp [state] at read
  | free other => simp [state] at read
  | allocated other =>
      simp only [state] at read
      split at read
      · rw [Except.ok.inj (Except.ok.inj read)]
      · cases read

namespace Settled

theorem allocate_regular (settled : b.Settled live) (order align : Nat) :
    (b.allocate order align).Reports Regular := by
  obtain ⟨⟨chains, layout⟩, _⟩ := id settled
  unfold allocate
  split
  · exact .pure _
  · apply Traced.Reports.compute
    intro aligned _
    cases aligned with
    | none => exact .pure _
    | some alignOrder =>
        dsimp only
        split
        · exact .pure _
        · cases smallest : b.smallestFreeOrder? (max order alignOrder) with
          | none => exact .pure _
          | some found =>
              obtain ⟨_, least, some, _⟩ := smallestFreeOrder?_some layout.listed smallest
              obtain ⟨index, rest, spelled⟩ := List.exists_cons_of_ne_nil some
              obtain ⟨after, answers, _⟩ := Layout.reading.take align (settled_iff.mp settled) layout
                spelled ((le_max_left _ _).trans least) ((le_max_right _ _).trans least)
              exact take_regular answers.outcome

theorem free_regular (settled : b.Settled live) (addr : Nat) : (b.free addr).Reports Regular := by
  obtain ⟨⟨chains, layout⟩, _⟩ := settled
  apply Traced.Reports.compute
  intro aligned _
  split
  · apply Traced.Reports.compute
    intro place found
    cases place with
    | none => exact .pure _
    | some index =>
        apply Traced.Reports.compute
        intro tag read
        cases tag with
        | error reason => exact .pure _
        | ok order =>
            have bound := layout.placed.index_lt found
            have member : ⟨b.firstFrame + index, order⟩ ∈ live :=
              (layout.live_iff _ _ (by simp)).mp (layout.placed.allocated_of_order bound read)
            have inHand := layout.hold_live member
            rw [insert_empty_eq] at inHand
            exact (release_regular inHand).bind fun _ _ => .compute fun _ _ => .compute fun _ _ =>
              (Traced.Reports.report trivial).bind fun _ _ => .pure _
  · exact .pure _

theorem pop_exists (settled : b.Settled live) (counted : 0 < b.freeBlocks order) :
    ∃ index after, b.pop order = .ok (some index, after) := by
  obtain ⟨⟨chains, layout⟩, _⟩ := settled
  rw [freeBlocks_eq layout.listed, List.length_pos_iff] at counted
  obtain ⟨index, rest, spelled⟩ := List.exists_cons_of_ne_nil counted
  have small := layout.listed.order_lt (spelled ▸ List.mem_cons_self ..)
  obtain ⟨after, answer, _⟩ := pop_listed layout.listed small spelled
  exact ⟨index, after, answer⟩

theorem link_exists (settled : b.Settled live) {page target : Nat} (bound : page < b.pages.size)
    (inside : target < b.pages.size) :
    ∃ after, b.link page (some target) = .ok after ∧ after.nextOf page = some target := by
  obtain ⟨⟨chains, layout⟩, _⟩ := settled
  refine ⟨_, link_eq _ bound, ?_⟩
  rw [nextOf_relinked bound, if_pos rfl]
  intro other same
  exact Option.some.inj same ▸ inside.trans layout.placed.few

theorem unfailing (settled : b.Settled live) : b.Unfailing := by
  constructor
  · intro order align
    obtain ⟨_, answers⟩ := settled.allocate_answers order align
    exact ⟨answers.completes, settled.allocate_regular order align⟩
  · intro addr
    obtain ⟨_, answers⟩ := settled.free_answers addr
    exact ⟨answers.completes, settled.free_regular addr⟩
  · exact fun order counted => settled.pop_exists counted
  · intro order bound
    obtain ⟨chain, linked, _, counted, free⟩ := settled.consistent.listed order bound
    exact ⟨chain, linked, counted, free⟩
  · exact fun page bound target inside => settled.link_exists bound inside

end Settled

/-- Whatever is asked of a buddy, in whatever order and with whatever arguments, it comes to an
answer, and the branches against a disagreement of its records and its lists are never taken. -/
theorem run_unfailing (accepted : Accepted range records) :
    ∃ b, create range records = .ok b ∧
      ∀ calls, ∃ s, Session.run ⟨b, []⟩ calls = .ok s ∧ s.buddy.Unfailing := by
  obtain ⟨b, created, fresh, _⟩ := create_settled accepted
  refine ⟨b, created, fun calls => ?_⟩
  obtain ⟨s, ran, settled, _⟩ := Session.run_settled (s := ⟨b, []⟩) calls fresh
  exact ⟨s, ran, settled.unfailing⟩

theorem run_unfailing_five :
    Accepted ⟨12288, 20480⟩ 5 ∧
      ∃ b, create ⟨12288, 20480⟩ 5 = .ok b ∧
        ∃ s, Session.run ⟨b, []⟩ [.allocate 0 8192, .free 16384, .free 16384] = .ok s ∧
          s.buddy.Unfailing := by
  obtain ⟨b, created, unfailing⟩ := run_unfailing accepted_five
  exact ⟨accepted_five, b, created, unfailing [.allocate 0 8192, .free 16384, .free 16384]⟩

end ZonedMemory.Buddy
