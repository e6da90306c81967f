import ZonedMemory.Proofs.PageAllocator.Run

namespace ZonedMemory

/-!
Which page frames a table of zones has. A usable range is cut at the two limits and shrunk to whole
pages on both sides of each cut, so what is lost are the frames that a bound of the range or a limit
goes through. The page records take frames off one piece, and the zones have all that are left.
-/

/-- All of a page frame has the given capabilities. -/
def ZoneConfig.Gives (config : ZoneConfig) (flags : ZoneFlags) (frame : Nat) : Prop :=
  ∀ addr, frame * pageSize ≤ addr → addr < (frame + 1) * pageSize → config.capabilitiesAt addr = flags

/-- The frame lies inside one usable range, and all its addresses have the same capabilities. -/
def MemoryMap.Zonable (m : MemoryMap) (config : ZoneConfig) (frame : Nat) : Prop :=
  ∃ usable ∈ m.usable.ranges, usable.HasFrame frame ∧ ∃ flags, config.Gives flags frame

namespace ZoneConfig

variable {config : ZoneConfig} {addr frame : Nat}

theorem capabilitiesAt_eq_dma :
    config.capabilitiesAt addr = ZoneFlags.dma.union ZoneFlags.dma32 ↔ addr < config.dmaLimit := by
  unfold capabilitiesAt
  split
  · simp [*]
  · split <;> simp only [*, iff_false] <;> decide

theorem capabilitiesAt_eq_dma32 :
    config.capabilitiesAt addr = ZoneFlags.dma32.union ZoneFlags.normal ↔
      config.dmaLimit ≤ addr ∧ addr < config.dma32Limit := by
  unfold capabilitiesAt
  split
  · rename_i below
    simp only [Nat.not_le.mpr below, false_and, iff_false]
    decide
  · rename_i above
    split
    · simp [Nat.le_of_not_lt above, *]
    · simp only [*, and_false, iff_false]
      decide

theorem capabilitiesAt_eq_normal :
    config.capabilitiesAt addr = ZoneFlags.normal ↔
      config.dmaLimit ≤ addr ∧ config.dma32Limit ≤ addr := by
  unfold capabilitiesAt
  split
  · rename_i below
    simp only [Nat.not_le.mpr below, false_and, iff_false]
    decide
  · rename_i above
    split
    · rename_i below
      simp only [Nat.not_le.mpr below, and_false, iff_false]
      decide
    · simp [Nat.le_of_not_lt above, Nat.le_of_not_lt, *]

/-- Memory has one of three sets of capabilities. -/
theorem capabilitiesAt_cases (config : ZoneConfig) (addr : Nat) :
    config.capabilitiesAt addr = ZoneFlags.dma.union ZoneFlags.dma32 ∨
      config.capabilitiesAt addr = ZoneFlags.dma32.union ZoneFlags.normal ∨
      config.capabilitiesAt addr = ZoneFlags.normal := by
  unfold capabilitiesAt
  split
  · exact .inl rfl
  · split
    · exact .inr (.inl rfl)
    · exact .inr (.inr rfl)

theorem gives_dma_iff :
    config.Gives (ZoneFlags.dma.union ZoneFlags.dma32) frame ↔
      (frame + 1) * pageSize ≤ config.dmaLimit := by
  have positive := pageSize_pos
  simp only [Gives, capabilitiesAt_eq_dma, Nat.succ_mul]
  constructor
  · intro every
    have := every (frame * pageSize + pageSize - 1) (by omega) (by omega)
    omega
  · intro below addr _ upper
    omega

theorem gives_dma32_iff :
    config.Gives (ZoneFlags.dma32.union ZoneFlags.normal) frame ↔
      config.dmaLimit ≤ frame * pageSize ∧ (frame + 1) * pageSize ≤ config.dma32Limit := by
  have positive := pageSize_pos
  simp only [Gives, capabilitiesAt_eq_dma32, Nat.succ_mul]
  constructor
  · intro every
    have first := every (frame * pageSize) (by omega) (by omega)
    have last := every (frame * pageSize + pageSize - 1) (by omega) (by omega)
    omega
  · intro between addr _ _
    omega

theorem gives_normal_iff :
    config.Gives ZoneFlags.normal frame ↔
      config.dmaLimit ≤ frame * pageSize ∧ config.dma32Limit ≤ frame * pageSize := by
  have positive := pageSize_pos
  simp only [Gives, capabilitiesAt_eq_normal, Nat.succ_mul]
  constructor
  · intro every
    exact every (frame * pageSize) (by omega) (by omega)
  · intro above addr _ _
    omega

theorem gives_cases {flags : ZoneFlags} (gives : config.Gives flags frame) :
    flags = ZoneFlags.dma.union ZoneFlags.dma32 ∨ flags = ZoneFlags.dma32.union ZoneFlags.normal ∨
      flags = ZoneFlags.normal := by
  have positive := pageSize_pos
  rw [← gives (frame * pageSize) (Nat.le_refl _) (by rw [Nat.succ_mul]; omega)]
  exact config.capabilitiesAt_cases _

end ZoneConfig

namespace ZoneTable

/-- The pieces of usable ranges: the frames of each are those of one usable range with one set of
capabilities, and no such frame is left out. -/
structure Sliced (config : ZoneConfig) (usables pieces : List Range) : Prop where
  slice : ∀ piece ∈ pieces, ∃ usable ∈ usables, ∃ flags, ∀ frame,
    piece.HasFrame frame ↔ usable.HasFrame frame ∧ config.Gives flags frame
  complete : ∀ usable ∈ usables, ∀ flags frame, usable.HasFrame frame → config.Gives flags frame →
    ∃ piece ∈ pieces, piece.HasFrame frame

variable {config : ZoneConfig} {usable host : Range} {usables ranges result : List Range}
  {required frame : Nat}

theorem piecesOf_sliced (computed : piecesOf config usable = .ok result) :
    Sliced config [usable] result := by
  obtain ⟨whole, low, rest, middle, high, first, second, third, aligned, lowSplit, highSplit,
    firstAligned, secondAligned, thirdAligned, rfl⟩ := piecesOf_eq_ok computed
  have firstFrames : ∀ frame, first.HasFrame frame ↔
      usable.HasFrame frame ∧ config.Gives (ZoneFlags.dma.union ZoneFlags.dma32) frame := by
    intro frame
    rw [Range.pageAligned_hasFrame firstAligned, (Range.splitAt_hasFrame lowSplit).1,
      Range.pageAligned_hasFrame aligned, ZoneConfig.gives_dma_iff]
  have secondFrames : ∀ frame, second.HasFrame frame ↔
      usable.HasFrame frame ∧ config.Gives (ZoneFlags.dma32.union ZoneFlags.normal) frame := by
    intro frame
    rw [Range.pageAligned_hasFrame secondAligned, (Range.splitAt_hasFrame highSplit).1,
      (Range.splitAt_hasFrame lowSplit).2, Range.pageAligned_hasFrame aligned,
      ZoneConfig.gives_dma32_iff, and_assoc]
  have thirdFrames : ∀ frame, third.HasFrame frame ↔
      usable.HasFrame frame ∧ config.Gives ZoneFlags.normal frame := by
    intro frame
    rw [Range.pageAligned_hasFrame thirdAligned, (Range.splitAt_hasFrame highSplit).2,
      (Range.splitAt_hasFrame lowSplit).2, Range.pageAligned_hasFrame aligned,
      ZoneConfig.gives_normal_iff, and_assoc]
  have kept : ∀ {piece frame}, piece ∈ [first, second, third] → Range.HasFrame piece frame →
      piece ∈ [first, second, third].filter fun piece => !piece.isEmpty := by
    intro piece frame listed has
    have := has.size_pos
    exact List.mem_filter.mpr ⟨listed, by simp [Range.isEmpty]; omega⟩
  refine ⟨fun piece member => ⟨usable, by simp, ?_⟩, fun other member flags frame has gives => ?_⟩
  · have listed := (List.mem_filter.mp member).1
    simp only [List.mem_cons, List.not_mem_nil, or_false] at listed
    rcases listed with rfl | rfl | rfl
    · exact ⟨_, firstFrames⟩
    · exact ⟨_, secondFrames⟩
    · exact ⟨_, thirdFrames⟩
  · obtain rfl := List.mem_singleton.mp member
    rcases ZoneConfig.gives_cases gives with rfl | rfl | rfl
    · have own := (firstFrames frame).mpr ⟨has, gives⟩
      exact ⟨first, kept (by simp) own, own⟩
    · have own := (secondFrames frame).mpr ⟨has, gives⟩
      exact ⟨second, kept (by simp) own, own⟩
    · have own := (thirdFrames frame).mpr ⟨has, gives⟩
      exact ⟨third, kept (by simp) own, own⟩

theorem pieces_sliced (computed : pieces config usables = .ok result) :
    Sliced config usables result := by
  induction usables generalizing result with
  | nil =>
      obtain rfl := Except.ok.inj computed
      exact ⟨by simp, by simp⟩
  | cons usable rest ih =>
      obtain ⟨here, cut, computed⟩ := bind_eq_ok.mp computed
      obtain ⟨later, recursed, computed⟩ := bind_eq_ok.mp computed
      obtain rfl := Except.ok.inj computed
      have own := piecesOf_sliced cut
      have others := ih recursed
      refine ⟨fun piece member => ?_, fun other member flags frame has gives => ?_⟩
      · rcases List.mem_append.mp member with inHere | inLater
        · obtain ⟨source, listed, slice⟩ := own.slice piece inHere
          exact ⟨source, by simp_all, slice⟩
        · obtain ⟨source, listed, slice⟩ := others.slice piece inLater
          exact ⟨source, by simp [listed], slice⟩
      · rcases List.mem_cons.mp member with rfl | inRest
        · obtain ⟨piece, listed, held⟩ := own.complete other (by simp) flags frame has gives
          exact ⟨piece, by simp [listed], held⟩
        · obtain ⟨piece, listed, held⟩ := others.complete other inRest flags frame has gives
          exact ⟨piece, by simp [listed], held⟩

/-- The frames of the pieces are all those that may belong to a zone. -/
theorem Sliced.frame_iff {m : MemoryMap} (sliced : Sliced config m.usable.ranges ranges) :
    (∃ piece ∈ ranges, piece.HasFrame frame) ↔ m.Zonable config frame := by
  constructor
  · intro covered
    obtain ⟨piece, member, has⟩ := covered
    obtain ⟨usable, listed, flags, slice⟩ := sliced.slice piece member
    obtain ⟨own, gives⟩ := (slice frame).mp has
    exact ⟨usable, listed, own, flags, gives⟩
  · intro zonable
    obtain ⟨usable, listed, own, flags, gives⟩ := zonable
    exact sliced.complete usable listed flags frame own gives

theorem Sliced.capabilities {piece : Range} (sliced : Sliced config usables ranges)
    (member : piece ∈ ranges) (paged : piece.Paged) :
    ∃ flags, ∀ place, piece.Holds place → config.capabilitiesAt place = flags := by
  obtain ⟨usable, _, flags, slice⟩ := sliced.slice piece member
  refine ⟨flags, fun addr holds => ?_⟩
  have gives := ((slice _).mp (paged.hasFrame holds)).2
  have lower := Nat.div_mul_le_self addr pageSize
  exact gives addr lower (by rw [Nat.succ_mul]; exact Nat.lt_div_mul_add pageSize_pos)

/-- Of the ranges that hold so many bytes the smallest is chosen, and the lowest of equals. -/
theorem smallestHolding_least (sorted : ranges.Pairwise fun r other => r.base ≤ other.base)
    (answer : smallestHolding required ranges = some host) :
    ∀ r ∈ ranges, required ≤ r.size → host.size ≤ r.size ∧ (r.size = host.size → host.base ≤ r.base) := by
  intro r member fits
  rw [smallestHolding_eq_argmin] at answer
  have roomy : r ∈ ranges.filter fun r => required ≤ r.size :=
    List.mem_filter.mpr ⟨member, by simpa using fits⟩
  refine ⟨List.le_of_mem_argmin roomy answer, fun same => ?_⟩
  exact Search.le_of_idxOf_le Range.base (sorted.filter _) (List.argmin_mem answer) roomy
    (List.index_of_argmin answer roomy same.le)

/-- Moving the start of one range up gives its first frames away and no others. -/
theorem shrink_frames (member : host ∈ ranges) (fits : required ≤ host.size) (paged : host.Paged)
    (whole : pageSize ∣ required) (computed : shrink host required ranges = .ok result) :
    ((∃ r ∈ result, r.HasFrame frame) ∨ (⟨host.base, required⟩ : Range).HasFrame frame) ↔
      ∃ r ∈ ranges, r.HasFrame frame := by
  obtain ⟨front, back, rfl, rfl⟩ := shrink_eq_ok member computed
  have cut : (⟨host.base + required, host.size - required⟩ : Range).HasFrame frame ∨
      (⟨host.base, required⟩ : Range).HasFrame frame ↔ host.HasFrame frame := by
    have positive := pageSize_pos
    obtain ⟨bound, place⟩ : pageSize ∣ host.base + required := Nat.dvd_add paged.1 whole
    have side : host.base + required ≤ frame * pageSize ∨
        (frame + 1) * pageSize ≤ host.base + required := by
      rw [place, Nat.mul_comm pageSize]
      exact (Nat.lt_or_ge frame bound).symm.imp (Nat.mul_le_mul_right _) (Nat.mul_le_mul_right _)
    simp only [Range.HasFrame, Nat.succ_mul] at side ⊢
    omega
  simp only [List.mem_append, List.mem_cons, or_and_right, exists_or, exists_eq_left, ← cut, or_assoc]
  rw [or_comm (b := Range.HasFrame ⟨host.base, required⟩ frame)]

theorem shrink_inside {r : Range} (member : host ∈ ranges) (fits : required ≤ host.size)
    (computed : shrink host required ranges = .ok result) (listed : r ∈ result) :
    ∃ piece ∈ ranges, piece.base ≤ r.base ∧ r.base + r.size ≤ piece.base + piece.size := by
  obtain ⟨front, back, rfl, rfl⟩ := shrink_eq_ok member computed
  rcases List.mem_append.mp listed with inFront | listed
  · exact ⟨r, by simp [inFront], Nat.le_refl _, Nat.le_refl _⟩
  · rcases List.mem_cons.mp listed with rfl | inBack
    · exact ⟨host, by simp, Nat.le_add_right _ _, by simp only; omega⟩
    · exact ⟨r, by simp [inBack], Nat.le_refl _, Nat.le_refl _⟩

/-- Nothing of a fresh zone is live, so all its pages are in free blocks. -/
theorem fresh_free {z : Zone} (fresh : z.Sound []) :
    z.totalPages * pageSize = z.range.size ∧ z.freePages = z.totalPages ∧
      z.buddy.freePages = z.totalPages ∧ ∀ frame, z.range.HasFrame frame →
        ∃ x : Block, z.buddy.blockState? x.addr = .ok (some (.free x.order)) ∧ x.Holds frame := by
  obtain ⟨⟨chains, layout⟩, accounted⟩ := fresh.settled
  have count : z.buddy.freePages = z.totalPages := accounted.trans fresh.totalPages.symm
  refine ⟨?_, fresh.mirror.trans count, count, fun frame has => ?_⟩
  · rw [fresh.totalPages, fresh.range, layout.placed.size]
  · rw [Range.HasFrame, fresh.range, layout.placed.base, layout.placed.size, ← Nat.add_mul,
      Nat.mul_le_mul_right_iff pageSize_pos, Nat.mul_le_mul_right_iff pageSize_pos] at has
    obtain ⟨x, listed, holds⟩ :=
      layout.partition.free_frame_iff.mpr ⟨has.1, has.2, by simp⟩
    refine ⟨x, ?_, holds⟩
    rw [Buddy.blockState?_eq layout.placed, x.addr_div, layout.state_free_iff.mpr listed]

/-- What a zone table over a memory map is made of. -/
structure Complete (m : MemoryMap) (config : ZoneConfig) (zones : List Zone) (metadata : Range) :
    Prop where
  notEmpty : zones ≠ []
  paged : ∀ z ∈ zones, 0 < z.range.size ∧ pageSize ∣ z.range.base ∧ pageSize ∣ z.range.size
  sorted : zones.Pairwise fun z other =>
    z.range.base < other.range.base ∧ z.range.base + z.range.size ≤ other.range.base
  clear : ∀ z ∈ zones, metadata.base + metadata.size ≤ z.range.base ∨
    z.range.base + z.range.size ≤ metadata.base
  indexed : ∀ (index : Nat) (z : Zone), zones[index]? = some z → z.index = index
  flags : ∀ z ∈ zones, ∀ addr, z.range.Holds addr → z.flags = config.capabilitiesAt addr
  free : ∀ z ∈ zones, z.totalPages * pageSize = z.range.size ∧ z.freePages = z.totalPages ∧
    z.buddy.freePages = z.totalPages ∧ ∀ frame, z.range.HasFrame frame →
      ∃ x : Block, z.buddy.blockState? x.addr = .ok (some (.free x.order)) ∧ x.Holds frame
  /-- The page records of all pieces are at the start of the smallest piece that holds them. -/
  hosted : ∃ pieces : List Range,
    (∀ piece ∈ pieces, 0 < piece.size ∧ pageSize ∣ piece.base ∧ pageSize ∣ piece.size) ∧
    pieces.Pairwise (fun piece other => piece.base + piece.size ≤ other.base) ∧
    Sliced config m.usable.ranges pieces ∧
    metadata.size = (8 * (pieces.map Range.pageCount).sum + 4095) / 4096 * 4096 ∧
    ∃ host ∈ pieces, metadata.base = host.base ∧ metadata.size ≤ host.size ∧
      ∀ piece ∈ pieces, metadata.size ≤ piece.size →
        host.size ≤ piece.size ∧ (piece.size = host.size → host.base ≤ piece.base)
  complete : ∀ frame, ((∃ z ∈ zones, z.range.HasFrame frame) ∨ metadata.HasFrame frame) ↔
    m.Zonable config frame

variable {m next : MemoryMap} {translator : Translator} {table : ZoneTable} {metadata : Range}

/-- A zone table that is built has every page frame of usable memory that can have one set of
capabilities, but for those that the page records take up. -/
theorem build_complete (built : m.Built)
    (computed : (build m translator config).outcome = .ok (.ok (table, metadata), next)) :
    Complete m config table.zones metadata := by
  obtain ⟨ranges, split, laid, _⟩ := build_eq_ok computed
  obtain ⟨whole, bounds⟩ := pieces_sound (built.normal .usable) split
  have sliced := pieces_sliced split
  obtain ⟨serving, housed, _⟩ := buildOver_sound whole laid
  obtain ⟨host, left, placed, chosen, shrunk, made, some, _⟩ := buildOver_eq_ok laid
  obtain ⟨member, fits⟩ := smallestHolding_mem chosen
  have records : pageSize ∣ metadata.size := by
    rw [placed]
    exact Nat.dvd_mul_left _ _
  obtain ⟨leftPieces, _⟩ := shrink_sound whole member fits records shrunk
  obtain ⟨same, _, made, _⟩ := zonesOver_sound leftPieces.paged made
  have inLeft : ∀ z ∈ table.zones, z.range ∈ left ∧ 0 < z.range.size := by
    intro z listed
    have mapped := List.mem_map_of_mem (f := Zone.range) listed
    rw [same] at mapped
    obtain ⟨kept, some⟩ := List.mem_filter.mp mapped
    simp only [Range.isEmpty, Bool.not_eq_true', beq_eq_false_iff_ne] at some
    exact ⟨kept, Nat.pos_of_ne_zero some⟩
  have base : metadata.base = host.base := by rw [placed]
  refine ⟨some, fun z listed => ⟨(inLeft z listed).2, leftPieces.paged _ (inLeft z listed).1⟩, ?_,
    housed.clear, serving.indexed, fun z listed addr holds => ?_,
    fun z listed => fresh_free (made z listed).1,
    ⟨ranges, fun piece listed => ⟨(bounds piece listed).1, whole.paged piece listed⟩, whole.sorted,
      sliced, ?_, host, member, base, fits, ?_⟩, fun frame => ?_⟩
  · refine serving.sorted.imp_of_mem fun {z other} listed _ before => ⟨?_, before⟩
    have := (inLeft z listed).2
    omega
  · obtain ⟨kept, positive⟩ := inLeft z listed
    obtain ⟨piece, own, lower, upper⟩ := shrink_inside member fits shrunk kept
    obtain ⟨flags, every⟩ := sliced.capabilities own (whole.paged piece own)
    obtain ⟨above, below⟩ := holds
    rw [(made z listed).2.1, every _ ⟨by omega, by omega⟩, every addr ⟨by omega, by omega⟩]
  · rw [placed, Nat.mul_comm 8]
    rfl
  · exact smallestHolding_least (whole.sorted.imp fun {r other} before => by omega) chosen
  · have zones : (∃ z ∈ table.zones, z.range.HasFrame frame) ↔ ∃ r ∈ left, r.HasFrame frame := by
      constructor
      · intro zoned
        obtain ⟨z, listed, has⟩ := zoned
        exact ⟨z.range, (inLeft z listed).1, has⟩
      · intro left
        obtain ⟨r, kept, has⟩ := left
        have positive := has.size_pos
        have mapped : r ∈ table.zones.map Zone.range := by
          rw [same]
          exact List.mem_filter.mpr ⟨kept, by simp [Range.isEmpty]; omega⟩
        obtain ⟨z, listed, rfl⟩ := List.mem_map.mp mapped
        exact ⟨z, listed, has⟩
    have frames : metadata.HasFrame frame ↔ (⟨host.base, metadata.size⟩ : Range).HasFrame frame := by
      rw [← base]
    rw [zones, frames, shrink_frames member fits (whole.paged host member) records shrunk,
      sliced.frame_iff]

/-- Limits that are no page boundaries, and the second below the first. -/
theorem build_complete_eight :
    PageAllocator.eightPages.Built ∧ ∃ table metadata next,
      (build PageAllocator.eightPages (.directMap 0) ⟨20000, 10000, .normal⟩).outcome =
        .ok (.ok (table, metadata), next) ∧
      Complete PageAllocator.eightPages ⟨20000, 10000, .normal⟩ table.zones metadata ∧
      metadata = ⟨4096, 4096⟩ ∧ table.zones.map Zone.range = [⟨8192, 8192⟩, ⟨20480, 16384⟩] := by
  have computed : ((build PageAllocator.eightPages (.directMap 0) ⟨20000, 10000, .normal⟩).outcome.toOption.bind
      fun made => made.1.toOption.map fun parts => decide (parts.2 = ⟨4096, 4096⟩ ∧
        parts.1.zones.map Zone.range = [⟨8192, 8192⟩, ⟨20480, 16384⟩])) = some true := by
    decide +kernel
  obtain ⟨⟨answer, next⟩, made, computed⟩ := Option.bind_eq_some_iff.mp computed
  obtain ⟨⟨table, metadata⟩, valid, holds⟩ := Option.map_eq_some_iff.mp computed
  obtain rfl : answer = .ok (table, metadata) := toOption_eq_some.mp valid
  obtain ⟨placed, ranges⟩ := of_decide_eq_true holds
  have built := toOption_eq_some.mp made
  exact ⟨PageAllocator.eightPages_built, table, metadata, next, built,
    build_complete PageAllocator.eightPages_built built, placed, ranges⟩

end ZoneTable

end ZonedMemory
