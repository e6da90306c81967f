import ZonedMemory.Buddy.Seed
import ZonedMemory.Proofs.Buddy.Layout
import ZonedMemory.Proofs.Range

namespace ZonedMemory.Buddy

/-!
Setting up. Each block is the largest that its start and the end of the range allow, so of two
buddies the lower one would have been their parent: the blocks come out coalesced.
-/

/-- The ranges that a buddy can be made for, given the number of records supplied. -/
structure Accepted (range : Range) (records : Nat) : Prop where
  word : range.base + range.size < 2 ^ 64
  belowLast : range.base + pageSize < 2 ^ 64
  enough : range.wholePages ≤ records
  few : range.wholePages < PageRecord.noLink

/-- The pages below `index` are covered; `tails` names the last block of every list. -/
structure Covered (b : Buddy) (index : Nat) (tails : Vector (Option Nat) Order.count)
    (chains : Nat → List Nat) : Prop where
  placed : b.Placed
  listed : b.Listed chains
  ordered : ∀ order, (chains order).Pairwise (· < ·)
  tails : ∀ order (bound : order < Order.count), tails[order] = (chains order).getLast?
  tiled : Tiled b.firstFrame (b.firstFrame + index) (listedBlocks b.firstFrame chains)
  greedy : ∀ x ∈ listedBlocks b.firstFrame chains, x.order < Order.top → 2 * x.pages ∣ x.start →
    b.firstFrame + b.pages.size < x.start + 2 * x.pages
  free_iff : ∀ frame order,
    b.stateAt? frame = some (.free order) ↔ ⟨frame, order⟩ ∈ listedBlocks b.firstFrame chains
  unused : ∀ frame order, b.stateAt? frame ≠ some (.allocated order)
  fresh : ∀ page, index ≤ page → b.nextOf page = none

variable {b : Buddy} {chains : Nat → List Nat} {index order records total : Nat}
  {tails : Vector (Option Nat) Order.count} {range : Range}

/-- The fitting order is the largest one whose block ends within the range. -/
theorem fittingOrder_eq (inside : index < total) (few : total < 2 ^ 52) (small : order ≤ Order.top) :
    ∃ fitting, fittingOrder index total order = .ok fitting ∧ fitting ≤ order ∧
      index + 2 ^ fitting ≤ total ∧
      ∀ larger ≤ order, index + 2 ^ larger ≤ total → larger ≤ fitting := by
  induction order with
  | zero =>
      have shift : Word.shiftLeft 1 0 = .ok 1 := rfl
      have sum : Word.add index 1 = .ok (index + 1) := Word.add_eq (by omega)
      refine ⟨0, ?_, le_rfl, inside, fun larger le _ => le⟩
      simp only [fittingOrder, shift, sum, ok_bind, if_neg (show ¬ index + 1 > total by omega),
        pure_eq_ok]
  | succ order ih =>
      have length : 2 ^ (order + 1) ≤ 2 ^ Order.top := Nat.pow_le_pow_right (by decide) small
      have short : 2 ^ Order.top < 2 ^ 52 := by decide
      have shift : Word.shiftLeft 1 (order + 1) = .ok (2 ^ (order + 1)) :=
        Word.shiftLeft_one (lt_of_le_of_lt small (by decide))
      have sum : Word.add index (2 ^ (order + 1)) = .ok (index + 2 ^ (order + 1)) :=
        Word.add_eq (by omega)
      simp only [fittingOrder, shift, sum, ok_bind, pure_eq_ok]
      by_cases long : index + 2 ^ (order + 1) > total
      · obtain ⟨fitting, answer, le, fits, largest⟩ := ih ((Nat.le_succ order).trans small)
        refine ⟨fitting, by rw [if_pos long, answer], by omega, fits, fun larger le inRange => ?_⟩
        rcases Nat.lt_or_eq_of_le le with less | rfl
        · exact largest larger (by omega) inRange
        · omega
      · exact ⟨order + 1, by rw [if_neg long], le_rfl, by omega, fun larger le _ => le⟩

theorem relisted_relisted {first last : FreeList} (bound : order < Order.count) :
    (b.relisted order first bound).relisted order last bound = b.relisted order last bound := by
  simp [relisted]

/-- A page goes to the end of a list by linking the last page of the list to it, or, when the list
has none, by making it the head. -/
def appended (b : Buddy) (index order : Nat) (bound : order < Order.count) :
    (last : Option Nat) → Buddy
  | some last => (b.relinked last (some index)).relisted order
      ⟨b.lists[order].head, b.lists[order].count + 1⟩ bound
  | none => b.relisted order ⟨some index, b.lists[order].count + 1⟩ bound

theorem appended_extent (b : Buddy) (index : Nat) (bound : order < Order.count) (last : Option Nat) :
    SameExtent b (b.appended index order bound last) := by
  cases last with
  | none => exact relisted_extent
  | some last => exact relinked_extent.trans relisted_extent

theorem stateAt?_appended {bound : order < Order.count} {last : Option Nat} :
    (b.appended index order bound last).stateAt? = b.stateAt? := by
  cases last with
  | none => rfl
  | some last => exact stateAt?_relisted.trans stateAt?_relinked

theorem nextOf_appended {bound : order < Order.count} {last : Option Nat} {page : Nat}
    (different : ∀ other ∈ last, page ≠ other) :
    (b.appended index order bound last).nextOf page = b.nextOf page := by
  cases last with
  | none => rfl
  | some last => exact nextOf_relinked_of_ne (different last rfl)

theorem appended_listed (listed : b.Listed chains) (few : b.pages.size < PageRecord.noLink)
    (inside : index < b.pages.size) (bound : order < Order.count)
    (absent : ∀ other, index ∉ chains other) (fresh : b.nextOf index = none) :
    (b.appended index order bound (chains order).getLast?).Listed
      (Function.update chains order (chains order ++ [index])) := by
  have linked := listed.linked order bound
  have counted := listed.counted order bound
  have apart : ∀ other, other ≠ order → ∀ page ∈ chains other, page ∉ chains order ++ [index] := by
    intro other different page member again
    rcases List.mem_append.mp again with again | again
    · exact listed.apart other order different page member again
    · exact absent other (List.mem_singleton.mp again ▸ member)
  rcases List.eq_nil_or_concat (chains order) with empty | ⟨front, last, spelled⟩
  · have spelling : b.appended index order bound (chains order).getLast? =
        b.relisted order ⟨some index, b.lists[order].count + 1⟩ bound := by
      rw [empty]
      rfl
    rw [spelling]
    refine listed.replace bound rfl rfl ?_ ?_ (fun _ _ _ _ => rfl) apart
    · rw [empty]
      exact ⟨rfl, inside, fresh⟩
    · simp [counted]
  · rw [List.concat_eq_append] at spelled
    have spelling : b.appended index order bound (chains order).getLast? =
        (b.relinked last (some index)).relisted order
          ⟨b.lists[order].head, b.lists[order].count + 1⟩ bound := by
      rw [spelled, List.getLast?_concat]
      rfl
    have member : last ∈ chains order := by simp [spelled]
    have lastInside := listed.lt_size member
    have notFront : last ∉ front := by
      have distinct := listed.nodup order
      rw [spelled, List.nodup_append] at distinct
      exact fun again => distinct.2.2 last again last (by simp) rfl
    have fits : ∀ target ∈ some index, target < PageRecord.noLink := by
      rintro target ⟨⟩
      exact inside.trans few
    rw [spelling]
    refine listed.replace bound relinked_extent.size rfl ?_ ?_ ?_ apart
    · rw [spelled] at linked ⊢
      refine segment_append.mpr ⟨some index, linked.retargeted notFront fits, rfl, ?_, ?_⟩
      · rw [relinked_extent.size]
        exact inside
      · have different : index ≠ last := fun same => absent order (same ▸ member)
        rw [nextOf_relinked lastInside fits, if_neg different, fresh]
        rfl
    · simp [counted]
    · intro other different page again
      have absentHere : page ≠ last := fun same =>
        listed.apart other order different page again (same ▸ member)
      rw [nextOf_relinked lastInside fits, if_neg absentHere]

theorem Covered.lt_index {page : Nat} (covered : b.Covered index tails chains)
    (member : page ∈ chains order) : page < index := by
  have inside := (covered.tiled.inside ⟨b.firstFrame + page, order⟩ ⟨page, member, rfl⟩).2
  have := Block.start_lt_stop ⟨b.firstFrame + page, order⟩
  simp only at this
  omega

theorem Covered.step (covered : b.Covered index tails chains) (inside : index < b.pages.size)
    (bound : order < Order.count) (natural : Block.Natural ⟨b.firstFrame + index, order⟩)
    (fits : index + 2 ^ order ≤ b.pages.size)
    (largest : order < Order.top → 2 ^ (order + 1) ∣ b.firstFrame + index →
      b.pages.size < index + 2 ^ (order + 1)) :
    ((b.retagged index (.free order)).appended index order bound tails[order]).Covered
      (index + 2 ^ order) (tails.set order (some index))
      (Function.update chains order (chains order ++ [index])) := by
  have outside : ∀ x ∈ listedBlocks b.firstFrame chains, x.start ≠ b.firstFrame + index := by
    intro x member same
    have := (covered.tiled.inside x member).2
    have := x.start_lt_stop
    omega
  have absent : ∀ other, index ∉ chains other := fun other member =>
    outside ⟨b.firstFrame + index, other⟩ ⟨index, member, rfl⟩ rfl
  have tagged := retagged_extent b index (.free order)
  have extent := tagged.trans (appended_extent _ index bound tails[order])
  have listed := appended_listed (covered.listed.retagged index (.free order))
    (by rw [tagged.size]; exact covered.placed.few) (by rwa [tagged.size]) bound absent
    (by rw [nextOf_retagged]; exact covered.fresh index le_rfl)
  rw [← covered.tails order bound] at listed
  have states : ∀ frame, ((b.retagged index (.free order)).appended index order bound
      tails[order]).stateAt? frame =
      if frame = b.firstFrame + index then some (.free order) else b.stateAt? frame := by
    intro frame
    rw [stateAt?_appended, stateAt?_retagged inside]
  have more : listedBlocks b.firstFrame (Function.update chains order (chains order ++ [index])) =
      insert ⟨b.firstFrame + index, order⟩ (listedBlocks b.firstFrame chains) :=
    listedBlocks_insert (by simp [or_comm])
  have links : ∀ page, index ≤ page → ((b.retagged index (.free order)).appended index order bound
      tails[order]).nextOf page = b.nextOf page := by
    intro page le
    rw [nextOf_appended, nextOf_retagged]
    intro last member
    rw [covered.tails order bound] at member
    exact ((covered.lt_index (List.mem_of_getLast? member)).trans_le le).ne'
  generalize (b.retagged index (.free order)).appended index order bound tails[order] = after
    at extent listed states links ⊢
  have frame := extent.firstFrame
  refine ⟨covered.placed.extent extent, listed, ?_, ?_, ?_, ?_, ?_, ?_, ?_⟩
  · intro other
    by_cases same : other = order
    · subst same
      rw [Function.update_self, List.pairwise_append]
      refine ⟨covered.ordered other, List.pairwise_singleton _ _, fun page member last here => ?_⟩
      rw [List.mem_singleton.mp here]
      exact covered.lt_index member
    · rw [Function.update_of_ne same]
      exact covered.ordered other
  · intro other otherBound
    by_cases same : other = order
    · subst same
      simp
    · rw [Vector.getElem_set_ne _ _ (Ne.symm same), Function.update_of_ne same,
        covered.tails other otherBound]
  · rw [frame, more, ← Nat.add_assoc]
    exact covered.tiled.extend (x := ⟨b.firstFrame + index, order⟩) natural
      (Nat.le_of_lt_succ bound) (Nat.le_add_right _ _)
  · rw [frame, more, extent.size]
    rintro x (rfl | member) less divides
    · have := largest less (by rwa [pow_succ, Nat.mul_comm])
      simp only [Block.pages]
      omega
    · exact covered.greedy x member less divides
  · intro frame' order'
    rw [states, frame, more]
    exact tagged_iff (x := ⟨b.firstFrame + index, order⟩) (fun _ _ same => BlockState.free.inj same)
      (fun y member => (outside y member).symm) fun _ => covered.free_iff frame' order'
  · intro frame' order'
    rw [states]
    split
    · simp
    · exact covered.unused frame' order'
  · intro page le
    have before : index ≤ page := (Nat.le_add_right index _).trans le
    rw [links page before]
    exact covered.fresh page before

theorem cover_eq {blocks : Nat} (covered : b.Covered index tails chains)
    (inside : index < b.pages.size) (bound : order < Order.count)
    (fitting : fittingOrder index b.pages.size
      (min (Frame.alignmentOrder (b.firstFrame + index)) Order.top) = .ok order)
    (fits : index + 2 ^ order ≤ b.pages.size) :
    cover b.pages.size (blocks + 1) index tails b =
      cover b.pages.size blocks (index + 2 ^ order) (tails.set order (some index))
        ((b.retagged index (.free order)).appended index order bound tails[order]) := by
  have few := covered.placed.frames_lt
  have frame : Word.add b.firstFrame index = .ok (b.firstFrame + index) := Word.add_eq (by omega)
  have shift : Word.shiftLeft 1 order = .ok (2 ^ order) :=
    Word.shiftLeft_one (bound.trans (by decide))
  have next : Word.add index (2 ^ order) = .ok (index + 2 ^ order) := Word.add_eq (by omega)
  have room : Word.add (b.retagged index (.free order)).lists[order].count 1 =
      .ok ((b.retagged index (.free order)).lists[order].count + 1) := by
    have := (covered.listed.linked order bound).length_le
    rw [← covered.listed.counted order bound] at this
    refine Word.add_eq ?_
    change b.lists[order].count + 1 < 2 ^ 64
    omega
  rw [cover]
  simp only [if_pos inside, frame, fitting, tag_eq inside, shift, next, dif_pos bound, ok_bind]
  cases final : tails[order] with
  | none =>
      simp only [setFreeList_eq bound, freeList_eq bound, ok_bind, lists_relisted bound, if_true, room,
        relisted_relisted]
      rfl
  | some last =>
      rw [covered.tails order bound] at final
      have member : last ∈ chains order := List.mem_of_getLast? final
      have linked := link_eq (b := b.retagged index (.free order)) (some index)
        ((retagged_extent ..).size ▸ covered.listed.lt_size member)
      simp only [linked, setFreeList_eq bound, freeList_eq bound, ok_bind]
      have same : ((b.retagged index (.free order)).relinked last (some index)).lists =
        (b.retagged index (.free order)).lists := rfl
      simp only [same, room, ok_bind]
      rfl

theorem cover_covered {blocks : Nat} (covered : b.Covered index tails chains)
    (le : index ≤ b.pages.size) (enough : b.pages.size ≤ index + blocks) :
    ∃ after tails' chains', cover b.pages.size blocks index tails b = .ok after ∧
      SameExtent b after ∧ after.Covered after.pages.size tails' chains' := by
  induction blocks generalizing b index tails chains with
  | zero =>
      obtain rfl : index = b.pages.size := by omega
      exact ⟨b, tails, chains, rfl, .refl b, covered⟩
  | succ blocks ih =>
      by_cases inside : index < b.pages.size
      · have few := covered.placed.frames_lt
        have frame : Word.add b.firstFrame index = .ok (b.firstFrame + index) :=
          Word.add_eq (by omega)
        obtain ⟨order, answer, le, fits, largest⟩ := fittingOrder_eq inside (by omega)
          (min_le_right (Frame.alignmentOrder (b.firstFrame + index)) Order.top)
        have bound : order < Order.count := Nat.lt_succ_of_le (le.trans (min_le_right _ _))
        have aligned : ∀ k ≤ Order.top,
            k ≤ Frame.alignmentOrder (b.firstFrame + index) ↔ 2 ^ k ∣ b.firstFrame + index :=
          fun k small => Word.le_trailingZeros_iff (small.trans (by decide))
        have natural : Block.Natural ⟨b.firstFrame + index, order⟩ :=
          (aligned order (Nat.le_of_lt_succ bound)).mp (le.trans (min_le_left _ _))
        have greedy : order < Order.top → 2 ^ (order + 1) ∣ b.firstFrame + index →
            b.pages.size < index + 2 ^ (order + 1) := by
          intro less divides
          by_contra shorter
          have := largest (order + 1) (le_min ((aligned _ less).mpr divides) less) (by omega)
          omega
        have stepped := covered.step inside bound natural fits greedy
        have extent := (retagged_extent b index (.free order)).trans
          (appended_extent _ index bound tails[order])
        have positive := Nat.two_pow_pos order
        obtain ⟨after, tails', chains', covering, lastExtent, result⟩ :=
          ih stepped (by rw [extent.size]; exact fits) (by rw [extent.size]; omega)
        refine ⟨after, tails', chains', ?_, extent.trans lastExtent, result⟩
        rw [extent.size] at covering
        rw [cover_eq covered inside bound answer fits, covering]
      · obtain rfl : index = b.pages.size := by omega
        exact ⟨b, tails, chains, by simp [cover], .refl b, covered⟩

theorem Covered.layout (covered : b.Covered b.pages.size tails chains) (count : Nat) :
    Layout { b with freePages := count } chains [] ∅ := by
  have noneLive : {x : Block | x ∈ ([] : List Block)} = ∅ := by simp
  refine Layout.withFreePages ⟨covered.placed, covered.listed, ?_, ?_, ?_, ?_, ?_, ?_⟩ count
  · rw [noneLive, Set.empty_union, Set.union_empty]
    exact covered.tiled
  · intro x member less again
    have natural := covered.tiled.natural x member
    rcases natural.buddy_cases with ⟨divides, start⟩ | ⟨divides, stop⟩
    · have long := covered.greedy x member less divides
      have inside := (covered.tiled.inside _ again).2
      simp only [Block.stop, Block.buddy_pages] at start inside
      omega
    · have long := covered.greedy x.buddy again less divides
      have inside := (covered.tiled.inside _ member).2
      simp only [Block.stop, Block.buddy_pages] at stop inside long
      omega
  · exact fun frame order _ => covered.free_iff frame order
  · intro frame order _
    simpa using covered.unused frame order
  · simp
  · simp

theorem Covered.settled (covered : b.Covered b.pages.size tails chains) :
    Settled { b with freePages := b.pages.size } [] :=
  ⟨⟨chains, covered.layout _⟩, by simp⟩

def blank (first pages : Nat) : Buddy where
  range := ⟨first * pageSize, pages * pageSize⟩
  firstFrame := first
  pages := Array.replicate pages PageRecord.tail
  lists := Vector.replicate Order.count FreeList.empty
  freePages := 0

theorem blank_covered {first pages : Nat} (word : first * pageSize + pages * pageSize < 2 ^ 64)
    (few : pages < PageRecord.noLink) :
    (blank first pages).Covered 0 (Vector.replicate Order.count none) fun _ => [] := by
  have nothing : listedBlocks (blank first pages).firstFrame (fun _ => []) = ∅ := by
    simp [listedBlocks]
  have tails : ∀ frame state, (blank first pages).stateAt? frame = some state → state = .tail := by
    intro frame state known
    unfold stateAt? blank at known
    split at known
    · simp only [Array.getElem?_replicate, Option.map_eq_some_iff] at known
      obtain ⟨record, found, rfl⟩ := known
      split at found
      · obtain rfl := Option.some_inj.mp found
        rfl
      · cases found
    · cases known
  refine ⟨⟨rfl, ?_, ?_, word⟩, ⟨?_, ?_, ?_, ?_⟩, fun _ => List.Pairwise.nil, ?_, ?_, ?_, ?_, ?_, ?_⟩
  · simp [blank]
  · simpa [blank] using few
  · intro order bound
    simp [blank, Segment, FreeList.empty]
  · intro order bound
    simp [blank, FreeList.empty]
  · simp
  · simp
  · intro order bound
    simp
  · rw [nothing]
    exact Tiled.empty _
  · simp [nothing]
  · intro frame order
    rw [nothing]
    exact iff_of_false (fun known => by cases tails _ _ known) (Set.notMem_empty _)
  · exact fun frame order known => by cases tails _ _ known
  · intro page _
    by_cases inside : page < pages <;> simp [nextOf, blank, inside]

theorem create_covered (accepted : Accepted range records) :
    ∃ (b : Buddy) (tails : Vector (Option Nat) Order.count) (chains : Nat → List Nat),
      create range records = .ok { b with freePages := b.pages.size } ∧
      b.Covered b.pages.size tails chains ∧
      b.range = ⟨range.firstFrame * pageSize, range.wholePages * pageSize⟩ := by
  have aligned := Range.pageAligned_eq accepted.word accepted.belowLast
  have word := Range.wholePages_word accepted.word accepted.belowLast
  have enough := accepted.enough
  have few := accepted.few
  generalize range.wholePages = pages at *
  have count : Range.pageCount ⟨range.firstFrame * pageSize, pages * pageSize⟩ = pages :=
    Nat.mul_div_cancel _ pageSize_pos
  have size : (blank range.firstFrame pages).pages.size = pages := by simp [blank]
  obtain ⟨b, tails, chains, covering, extent, covered⟩ := cover_covered
    (blank_covered word few) (Nat.zero_le _) (show _ ≤ 0 + pages by rw [size]; omega)
  have total : b.pages.size = pages := extent.size.trans size
  refine ⟨b, tails, chains, ?_, covered, extent.range⟩
  rw [size] at covering
  simp only [create, aligned, ok_bind, count, if_neg (Nat.not_lt.mpr enough),
    if_neg (Nat.not_le.mpr few), Frame.ofAddress_start, pure_eq_ok, total]
  change (cover pages pages 0 _ (blank range.firstFrame pages) >>= _) = _
  rw [covering]
  rfl

theorem create_settled (accepted : Accepted range records) :
    ∃ b, create range records = .ok b ∧ b.Settled [] ∧
      b.range = ⟨range.firstFrame * pageSize, range.wholePages * pageSize⟩ := by
  obtain ⟨b, _, _, created, covered, whole⟩ := create_covered accepted
  exact ⟨_, created, covered.settled, whole⟩

/-- The accepted ranges are all for which a buddy is made. -/
theorem create_ok_iff : (∃ b, create range records = .ok b) ↔ Accepted range records := by
  constructor
  · rintro ⟨b, created⟩
    obtain ⟨whole, aligned, rest⟩ := bind_eq_ok.mp created
    obtain ⟨start, rounded, further⟩ := bind_eq_ok.mp aligned
    obtain ⟨stop, sum, _⟩ := bind_eq_ok.mp further
    have belowLast := (Address.alignUp_page_eq_ok.mp rounded).1
    have word := (Word.add_eq_ok.mp sum).1
    obtain rfl := Except.ok.inj ((Range.pageAligned_eq word belowLast).symm.trans aligned)
    have count : Range.pageCount ⟨range.firstFrame * pageSize, range.wholePages * pageSize⟩ =
        range.wholePages := Nat.mul_div_cancel _ pageSize_pos
    simp only [count, throw_eq_error] at rest
    split at rest
    · cases rest
    · split at rest
      · cases rest
      · exact ⟨word, belowLast, by omega, by omega⟩
  · intro accepted
    obtain ⟨b, created, _⟩ := create_settled accepted
    exact ⟨b, created⟩

end ZonedMemory.Buddy
