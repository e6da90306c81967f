import ZonedMemory.Proofs.Range.Count
import ZonedMemory.Proofs.ZoneTable.Coverage

namespace ZonedMemory

/-!
How much usable memory comes to. The pieces that usable ranges are cut into can be counted without the
cutting: there is one for every usable range and every set of capabilities that they share a page frame
of, and they have all the frames that may belong to a zone.
-/

namespace Range

variable {r low high : Range} {addr : Nat}

theorem splitAt_exists (word : r.base + r.size < 2 ^ 64) (addr : Nat) :
    ∃ low high, r.splitAt addr = .ok (low, high) := by
  unfold splitAt
  split
  · exact ⟨_, _, rfl⟩
  · rename_i above
    rw [stop_eq word, ok_bind]
    split
    · exact ⟨_, _, rfl⟩
    · rename_i below
      rw [ofBounds_eq_ok.mpr ⟨Nat.le_of_not_le above, rfl⟩, ofBounds_eq_ok.mpr ⟨Nat.le_of_not_le below, rfl⟩]
      exact ⟨_, _, rfl⟩

theorem splitAt_stop (split : r.splitAt addr = .ok (low, high)) :
    low.base + low.size ≤ r.base + r.size ∧ high.base + high.size ≤ r.base + r.size := by
  unfold splitAt at split
  split at split
  · obtain ⟨rfl, rfl⟩ := Prod.mk.inj (Except.ok.inj split)
    simp
  · obtain ⟨stop, sum, rest⟩ := bind_eq_ok.mp split
    obtain ⟨_, rfl⟩ := Word.add_eq_ok.mp sum
    split at rest
    · obtain ⟨rfl, rfl⟩ := Prod.mk.inj (Except.ok.inj rest)
      simp
    · obtain ⟨below, lower, rest⟩ := bind_eq_ok.mp rest
      obtain ⟨above, upper, rest⟩ := bind_eq_ok.mp rest
      obtain ⟨_, rfl⟩ := ofBounds_eq_ok.mp lower
      obtain ⟨_, rfl⟩ := ofBounds_eq_ok.mp upper
      obtain ⟨rfl, rfl⟩ := Prod.mk.inj (Except.ok.inj rest)
      simp only
      omega

/-- A range that ends below the last page can be shrunk to whole pages. -/
theorem pageAligned_exists (below : r.base + r.size + pageSize < 2 ^ 64) :
    ∃ whole, r.pageAligned = .ok whole :=
  ⟨_, pageAligned_eq (by omega) (by omega)⟩

/-- Shrinking a range moves no bound past the last page, unless its start is rounded up that far. -/
theorem pageAligned_stop {whole : Range} (aligned : r.pageAligned = .ok whole)
    (below : r.base + r.size + pageSize < 2 ^ 64) (start : r.base + 2 * pageSize ≤ 2 ^ 64) :
    whole.base + whole.size + pageSize < 2 ^ 64 := by
  obtain rfl := Except.ok.inj ((pageAligned_eq (by omega) (by omega)).symm.trans aligned)
  have lower := Nat.div_mul_le_self (r.base + r.size) pageSize
  have upper := Nat.div_mul_le_self (r.base + pageSize - 1) pageSize
  have positive := pageSize_pos
  have first : r.firstFrame = (r.base + pageSize - 1) / pageSize := rfl
  rw [← first] at upper
  simp only [wholePages, Nat.sub_mul]
  omega

end Range

/-- The usable range has a page frame with just these capabilities. -/
def MemoryMap.Slice (m : MemoryMap) (config : ZoneConfig) (part : Range × ZoneFlags) : Prop :=
  part.1 ∈ m.usable.ranges ∧ ∃ frame, part.1.HasFrame frame ∧ config.Gives part.2 frame

theorem ZoneConfig.Gives.unique {config : ZoneConfig} {flags other : ZoneFlags} {frame : Nat}
    (gives : config.Gives flags frame) (otherGives : config.Gives other frame) : flags = other := by
  have inside : frame * pageSize < (frame + 1) * pageSize := by
    rw [Nat.succ_mul]
    exact Nat.lt_add_of_pos_right pageSize_pos
  exact (gives _ (Nat.le_refl _) inside).symm.trans (otherGives _ (Nat.le_refl _) inside)

namespace ZoneTable

variable {config : ZoneConfig} {usable piece : Range} {usables ranges : List Range} {m : MemoryMap}

theorem piecesOf_exists (config : ZoneConfig) (below : usable.base + usable.size + pageSize < 2 ^ 64)
    (start : usable.base + 2 * pageSize ≤ 2 ^ 64) : ∃ result, piecesOf config usable = .ok result := by
  obtain ⟨whole, aligned⟩ := Range.pageAligned_exists below
  have wholeBelow := Range.pageAligned_stop aligned below start
  obtain ⟨low, rest, lowSplit⟩ := Range.splitAt_exists (r := whole) (by omega) config.dmaLimit
  obtain ⟨lowStop, restStop⟩ := Range.splitAt_stop lowSplit
  obtain ⟨middle, high, highSplit⟩ := Range.splitAt_exists (r := rest) (by omega) config.dma32Limit
  obtain ⟨middleStop, highStop⟩ := Range.splitAt_stop highSplit
  obtain ⟨first, firstAligned⟩ := Range.pageAligned_exists (r := low) (by omega)
  obtain ⟨second, secondAligned⟩ := Range.pageAligned_exists (r := middle) (by omega)
  obtain ⟨third, thirdAligned⟩ := Range.pageAligned_exists (r := high) (by omega)
  refine ⟨[first, second, third].filter fun piece => !piece.isEmpty, ?_⟩
  simp only [piecesOf, aligned, lowSplit, highSplit, List.mapM_cons, List.mapM_nil, firstAligned,
    secondAligned, thirdAligned, ok_bind, pure_eq_ok]

theorem pieces_exists (config : ZoneConfig)
    (below : ∀ usable ∈ usables, usable.base + usable.size + pageSize < 2 ^ 64)
    (starts : ∀ usable ∈ usables, usable.base + 2 * pageSize ≤ 2 ^ 64) :
    ∃ result, pieces config usables = .ok result := by
  induction usables with
  | nil => exact ⟨[], rfl⟩
  | cons usable rest ih =>
      obtain ⟨usableBelow, restBelow⟩ := List.forall_mem_cons.mp below
      obtain ⟨start, restStarts⟩ := List.forall_mem_cons.mp starts
      obtain ⟨here, cut⟩ := piecesOf_exists config usableBelow start
      obtain ⟨later, recursed⟩ := ih restBelow restStarts
      refine ⟨here ++ later, ?_⟩
      simp only [pieces, cut, recursed, ok_bind, pure_eq_ok]

/-- A page frame belongs to one usable range and has one set of capabilities. -/
theorem part_eq {part other : Range × ZoneFlags} {frame : Nat} (normal : RegionSet.Normal usables)
    (listed : part.1 ∈ usables) (otherListed : other.1 ∈ usables)
    (shared : part.1.HasFrame frame ∧ config.Gives part.2 frame)
    (otherShared : other.1.HasFrame frame ∧ config.Gives other.2 frame) : part = other :=
  Prod.ext (Range.eq_of_hasFrame (normal.spaced.imp Nat.le_of_lt) listed otherListed shared.1 otherShared.1)
    (shared.2.unique otherShared.2)

/-- The piece has just those frames of a usable range that have the given capabilities. -/
def Cut (config : ZoneConfig) (part : Range × ZoneFlags) (piece : Range) : Prop :=
  ∀ frame, piece.HasFrame frame ↔ part.1.HasFrame frame ∧ config.Gives part.2 frame

namespace Sliced

section

variable (sliced : Sliced config m.usable.ranges ranges) (whole : Pieces ranges)
  (some : ∀ piece ∈ ranges, 0 < piece.size) (normal : RegionSet.Normal m.usable.ranges)
include sliced whole some normal

theorem cut_unique (member : piece ∈ ranges) :
    ∃ part, {other | m.Slice config other ∧ Cut config other piece} = {part} := by
  obtain ⟨usable, listed, flags, cut⟩ := sliced.slice piece member
  obtain ⟨frame, has⟩ := (whole.paged piece member).exists_frame (some piece member)
  have shared := (cut frame).mp has
  refine ⟨(usable, flags), Set.ext fun other => ⟨fun sliced => ?_, fun same => ?_⟩⟩
  · obtain ⟨⟨otherListed, _⟩, otherCut⟩ := sliced
    exact part_eq normal otherListed listed ((otherCut frame).mp has) shared
  · obtain rfl := Set.mem_singleton_iff.mp same
    exact ⟨⟨listed, frame, shared⟩, cut⟩

/-- There are as many pieces as there are usable ranges and capabilities that share a frame. -/
theorem ncard_slices : {part | m.Slice config part}.ncard = ranges.length := by
  have every : {part | m.Slice config part} =
      {part | ∃ piece ∈ ranges, m.Slice config part ∧ Cut config part piece} := by
    ext part
    refine ⟨fun slice => ?_, fun cut => ?_⟩
    · obtain ⟨listed, frame, shared⟩ := id slice
      obtain ⟨piece, member, has⟩ := sliced.complete part.1 listed part.2 frame shared.1 shared.2
      obtain ⟨usable, otherListed, flags, cut⟩ := sliced.slice piece member
      obtain rfl : part = (usable, flags) := part_eq normal listed otherListed shared ((cut frame).mp has)
      exact ⟨piece, member, slice, cut⟩
    · obtain ⟨_, _, slice, _⟩ := cut
      exact slice
  have apart : ranges.Pairwise fun piece other => ∀ part, m.Slice config part ∧ Cut config part piece →
      ¬ (m.Slice config part ∧ Cut config part other) := by
    refine (Range.frames_apart whole.sorted).imp_of_mem fun {piece other} member _ apart part cut otherCut => ?_
    obtain ⟨frame, has⟩ := (whole.paged piece member).exists_frame (some piece member)
    exact apart frame has ((otherCut.2 frame).mpr ((cut.2 frame).mp has))
  have single : ∀ piece ∈ ranges, {part | m.Slice config part ∧ Cut config part piece}.ncard = 1 :=
    fun piece member => Set.ncard_eq_one.mpr (sliced.cut_unique whole some normal member)
  have finite : ∀ piece ∈ ranges, {part | m.Slice config part ∧ Cut config part piece}.Finite := by
    intro piece member
    obtain ⟨part, only⟩ := sliced.cut_unique whole some normal member
    rw [only]
    exact Set.finite_singleton part
  rw [every, (ncard_exists_mem finite apart).2, List.map_congr_left single, List.map_const', List.sum_replicate_nat,
    Nat.mul_one]

end

/-- A piece has no more pages than any part that it may have been cut from. -/
theorem few {limit : Nat} (sliced : Sliced config usables ranges) (whole : Pieces ranges)
    (few : ∀ usable ∈ usables, ∀ flags,
      {frame | usable.HasFrame frame ∧ config.Gives flags frame}.ncard < limit)
    (member : piece ∈ ranges) : piece.pageCount < limit := by
  obtain ⟨usable, listed, flags, cut⟩ := sliced.slice piece member
  have same : {frame | piece.HasFrame frame} =
      {frame | usable.HasFrame frame ∧ config.Gives flags frame} := Set.ext cut
  rw [← (whole.paged piece member).ncard_hasFrame, same]
  exact few usable listed flags

theorem ncard_zonable (sliced : Sliced config m.usable.ranges ranges) (whole : Pieces ranges) :
    {frame | m.Zonable config frame}.ncard = (ranges.map Range.pageCount).sum := by
  rw [← Range.ncard_frames whole.paged whole.sorted]
  exact congrArg Set.ncard (Set.ext fun frame => sliced.frame_iff.symm)

end Sliced

end ZoneTable

end ZonedMemory
