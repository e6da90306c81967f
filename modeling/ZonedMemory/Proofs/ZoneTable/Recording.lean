import ZonedMemory.Proofs.MemoryMap.Reclassification
import ZonedMemory.Proofs.ZoneTable.Coverage

namespace ZonedMemory.ZoneTable

/-!
What the memory map shows once zones are built over it. The page records are moved from usable memory to
a kind of their own. The zones are in use whether or not the map has room to show that, so a map without
room only has it reported.
-/

/-- A memory map after zones were built over it. Nothing is said about the addresses above the page
records in a range of a full set of usable ranges that would have to be split around them. -/
structure Recorded (m : MemoryMap) (zones : List Zone) (metadata : Range) (reported : List Event)
    (next : MemoryMap) : Prop where
  others : ∀ kind, kind ≠ .usable → kind ≠ .allocatorMetadata → next.of kind = m.of kind
  taken : ∀ addr, next.Covers .usable addr → m.Covers .usable addr ∧ ¬ metadata.Holds addr
  usable : ∀ addr, ¬ m.usable.Overhang metadata addr →
    (next.Covers .usable addr ↔ m.Covers .usable addr ∧ ¬ metadata.Holds addr)
  zoned : ∀ z ∈ zones, ∀ addr, z.range.Holds addr → ¬ m.usable.Overhang metadata addr →
    next.Covers .usable addr
  shown : ¬ m.usable.Unsplittable metadata → ¬ (m.of .allocatorMetadata).Shut metadata → ∀ addr,
    next.Covers .allocatorMetadata addr ↔ metadata.Holds addr ∨ m.Covers .allocatorMetadata addr
  unshown : m.usable.Unsplittable metadata ∨ (m.of .allocatorMetadata).Shut metadata →
    next.of .allocatorMetadata = m.of .allocatorMetadata
  reported_iff : .zone (.unrecorded metadata) ∈ reported ↔
    m.usable.Unsplittable metadata ∨ (m.of .allocatorMetadata).Shut metadata

variable {m next : MemoryMap} {translator : Translator} {config : ZoneConfig} {table : ZoneTable}
  {metadata range usable : Range} {ranges result usables : List Range} {zones : List Zone}
  {required records index addr : Nat}

/-- The end of every usable range is looked at on the way to whole pages. -/
theorem pieces_bounded (computed : pieces config usables = .ok result) : RegionSet.Bounded usables := by
  induction usables generalizing result with
  | nil => exact List.forall_mem_nil _
  | cons usable rest ih =>
      obtain ⟨here, cut, computed⟩ := bind_eq_ok.mp computed
      obtain ⟨later, recursed, _⟩ := bind_eq_ok.mp computed
      obtain ⟨whole, aligned, _⟩ := bind_eq_ok.mp cut
      obtain ⟨start, _, aligned⟩ := bind_eq_ok.mp aligned
      obtain ⟨stop, sum, _⟩ := bind_eq_ok.mp aligned
      exact RegionSet.bounded_cons.mpr ⟨(Word.add_eq_ok.mp sum).1, ih recursed⟩

/-- Recording reports nothing but that it was refused. -/
theorem recordMetadata_eq_ok (computed : (recordMetadata m metadata).outcome = .ok next) :
    ∃ answer, m.reclassify metadata .usable .allocatorMetadata = .ok (answer, next) ∧
      (.zone (.unrecorded metadata) ∈ (recordMetadata m metadata).events ↔ answer ≠ .ok ()) := by
  unfold recordMetadata at computed ⊢
  obtain ⟨⟨answer, left⟩, moved, computed⟩ := Traced.bind_eq_ok.mp computed
  rw [Traced.events_bind moved]
  rw [Traced.outcome_lift] at moved
  cases answer with
  | ok done =>
      obtain rfl := Except.ok.inj computed
      exact ⟨.ok (), moved, by simp⟩
  | error refusal =>
      obtain ⟨_, reported, computed⟩ := Traced.bind_eq_ok.mp computed
      obtain rfl := Except.ok.inj computed
      exact ⟨.error refusal, moved, by simp [Traced.events_bind reported]⟩

/-- Making zones reports the zones that are made. -/
theorem zonesOver_reports {event : Event}
    (reported : event ∈ (zonesOver config required records index ranges).events) :
    ∃ place flags range, event = .zone (.built place flags range) := by
  induction ranges generalizing records index with
  | nil => cases reported
  | cons range rest ih =>
      rw [zonesOver_cons] at reported
      split at reported
      · exact ih reported
      · split at reported
        · cases reported
        · simp only [Traced.mem_events_bind, Traced.events_lift, Traced.events_report, List.not_mem_nil,
            false_or, List.mem_singleton] at reported
          obtain ⟨buddy, _, rfl | ⟨_, _, reported⟩⟩ := reported
          · exact ⟨_, _, _, rfl⟩
          · rcases reported with later | ⟨others, _, last⟩
            · exact ih later
            · cases others with
              | error reason => cases last
              | ok zones => cases last

/-- Building moves the range of the page records in the map and reports whether that was refused. -/
theorem build_reclassifies
    (computed : (build m translator config).outcome = .ok (.ok (table, metadata), next)) :
    ∃ answer, m.reclassify metadata .usable .allocatorMetadata = .ok (answer, next) ∧
      (.zone (.unrecorded metadata) ∈ (build m translator config).events ↔ answer ≠ .ok ()) := by
  obtain ⟨ranges, _, laid, sameEvents⟩ := build_eq_ok computed
  obtain ⟨host, left, _, _, _, _, _, recorded, events⟩ := buildOver_eq_ok laid
  obtain ⟨answer, moved, refusal⟩ := recordMetadata_eq_ok recorded
  refine ⟨answer, moved, ?_⟩
  rw [sameEvents, events, ← refusal]
  constructor
  · intro reported
    rcases List.mem_cons.mp reported with placed | reported
    · cases placed
    · rcases List.mem_append.mp reported with recording | zoned
      · exact recording
      · obtain ⟨place, flags, range, made⟩ := zonesOver_reports zoned
        cases made
  · intro recording
    exact List.mem_cons_of_mem _ (List.mem_append_left _ recording)

/-- The page records take up a part of one usable range. -/
theorem build_carves (built : m.Built)
    (computed : (build m translator config).outcome = .ok (.ok (table, metadata), next)) :
    RegionSet.Bounded m.usable.ranges ∧ 0 < metadata.size ∧
      ∃ usable ∈ m.usable.ranges, usable.base ≤ metadata.base ∧
        metadata.base + metadata.size ≤ usable.base + usable.size := by
  obtain ⟨ranges, split, laid, _⟩ := build_eq_ok computed
  obtain ⟨whole, bounds⟩ := pieces_sound (built.normal .usable) split
  obtain ⟨host, left, placed, chosen, _⟩ := buildOver_eq_ok laid
  obtain ⟨member, fits⟩ := smallestHolding_mem chosen
  obtain ⟨positive, usable, listed, lower, upper⟩ := bounds host member
  have base : metadata.base = host.base := by rw [placed]
  have pages : 0 < (ranges.map Range.pageCount).sum := by
    have own : 0 < host.pageCount :=
      Nat.div_pos (Nat.le_of_dvd positive (whole.paged host member).2) pageSize_pos
    exact own.trans_le (List.le_sum_of_mem (List.mem_map_of_mem member))
  have size : metadata.size =
      ((ranges.map Range.pageCount).sum * PageRecord.size + pageSize - 1) / pageSize * pageSize := by
    rw [placed]
  have records : 0 < metadata.size := by
    rw [size]
    refine Nat.mul_pos (Nat.div_pos ?_ pageSize_pos) pageSize_pos
    have bytes : 0 < (ranges.map Range.pageCount).sum * PageRecord.size := Nat.mul_pos pages (by decide)
    omega
  exact ⟨pieces_bounded split, records, usable, listed, by omega, by omega⟩

/-- A zone lies in one usable range. -/
theorem build_zones_inside (built : m.Built)
    (computed : (build m translator config).outcome = .ok (.ok (table, metadata), next))
    {z : Zone} (listed : z ∈ table.zones) :
    ∃ usable ∈ m.usable.ranges, usable.base ≤ z.range.base ∧
      z.range.base + z.range.size ≤ usable.base + usable.size := by
  obtain ⟨ranges, split, laid, _⟩ := build_eq_ok computed
  obtain ⟨whole, bounds⟩ := pieces_sound (built.normal .usable) split
  obtain ⟨host, left, placed, chosen, shrunk, made, _⟩ := buildOver_eq_ok laid
  obtain ⟨member, fits⟩ := smallestHolding_mem chosen
  have paged : pageSize ∣ metadata.size := by
    rw [placed]
    exact Nat.dvd_mul_left _ _
  obtain ⟨leftPieces, _⟩ := shrink_sound whole member fits paged shrunk
  obtain ⟨same, _⟩ := zonesOver_sound leftPieces.paged made
  obtain ⟨piece, own, above, below⟩ :=
    shrink_inside member fits shrunk (range_mem_of_zone same listed).1
  obtain ⟨_, usable, inMap, lower, upper⟩ := bounds piece own
  exact ⟨usable, inMap, lower.trans above, below.trans upper⟩

/-- The zones are made of usable memory, and of none that the page records take up. -/
theorem build_zones_usable (built : m.Built)
    (computed : (build m translator config).outcome = .ok (.ok (table, metadata), next))
    {z : Zone} (listed : z ∈ table.zones) (holds : z.range.Holds addr) :
    m.Covers .usable addr ∧ ¬ metadata.Holds addr := by
  obtain ⟨usable, member, lower, upper⟩ := build_zones_inside built computed listed
  have clear := (build_sound built computed).2.1.clear z listed
  simp only [Range.Holds] at holds
  constructor
  · exact ⟨usable, member, lower.trans holds.1, holds.2.trans_le upper⟩
  · intro recorded
    simp only [Range.Holds] at recorded
    omega

/-- Building zones moves the range of the page records, and no other byte, from usable memory to the
kind for it. Where that is refused, the records are not shown, which is reported. -/
theorem build_records (built : m.Built)
    (computed : (build m translator config).outcome = .ok (.ok (table, metadata), next)) :
    Recorded m table.zones metadata (build m translator config).events next := by
  obtain ⟨answer, moved, reported⟩ := build_reclassifies computed
  obtain ⟨_, positive, _⟩ := build_carves built computed
  have changed := MemoryMap.reclassify_shifts moved built.normal built.sized
  have apart : MemoryKind.usable ≠ .allocatorMetadata := by decide
  have refused_iff : answer ≠ .ok () ↔
      m.usable.Unsplittable metadata ∨ (m.of .allocatorMetadata).Shut metadata :=
    changed.refused_iff.trans (and_iff_right positive)
  have accepted (splits : ¬ m.usable.Unsplittable metadata)
      (room : ¬ (m.of .allocatorMetadata).Shut metadata) : answer = .ok () :=
    not_not.mp (refused_iff.not.mpr (not_or.mpr ⟨splits, room⟩))
  have remains (addr : Nat) (rooms : ¬ m.usable.Overhang metadata addr) :
      next.Covers .usable addr ↔ m.Covers .usable addr ∧ ¬ metadata.Holds addr :=
    ⟨changed.taken (.inl apart) addr, fun before => changed.remains addr (.inr rooms) before.1 before.2⟩
  constructor
  · exact changed.others
  · exact changed.taken (.inl apart)
  · exact remains
  · intro z member addr holds rooms
    exact (remains addr rooms).mpr (build_zones_usable built computed member holds)
  · exact fun splits room => changed.entered (accepted splits room)
  · exact fun denied => changed.refused (refused_iff.mpr denied) apart
  · exact reported.trans refused_iff

/-- One usable range that starts and ends in the middle of a page. -/
def unaligned : List BootEntry := [⟨⟨1000, 40000⟩, .usable⟩]

/-- The records come to be in the middle of the only usable range, which is split. -/
theorem build_records_unaligned :
    ∃ m table metadata next, m.Built ∧
      (build m (.directMap 0) {}).outcome = .ok (.ok (table, metadata), next) ∧
      Recorded m table.zones metadata (build m (.directMap 0) {}).events next ∧
      next.usable.ranges = [⟨1000, 3096⟩, ⟨8192, 32808⟩] ∧
      (next.of .allocatorMetadata).ranges = [⟨4096, 4096⟩] := by
  have computed : ((MemoryMap.ofBootEntries unaligned).outcome.toOption.bind fun m =>
      (build m (.directMap 0) {}).outcome.toOption.bind fun made => made.1.toOption.map fun _ =>
        decide (made.2.usable.ranges = [⟨1000, 3096⟩, ⟨8192, 32808⟩] ∧
          (made.2.of .allocatorMetadata).ranges = [⟨4096, 4096⟩])) = some true := by
    decide +kernel
  obtain ⟨m, read, computed⟩ := Option.bind_eq_some_iff.mp computed
  obtain ⟨⟨answer, next⟩, made, computed⟩ := Option.bind_eq_some_iff.mp computed
  obtain ⟨⟨table, metadata⟩, valid, holds⟩ := Option.map_eq_some_iff.mp computed
  obtain rfl : answer = .ok (table, metadata) := toOption_eq_some.mp valid
  have built : m.Built := .ofBootEntries (toOption_eq_some.mp read)
  have laid := toOption_eq_some.mp made
  exact ⟨m, table, metadata, next, built, laid, build_records built laid, of_decide_eq_true holds⟩

/-- One usable range beside as many ranges of page records as can be shown, all apart. -/
def filled : List BootEntry :=
  ⟨⟨4096, 32768⟩, .usable⟩ ::
    (List.range 64).map fun i => ⟨⟨65536 + 8192 * i, 4096⟩, .allocatorMetadata⟩

/-- Not every map shows the page records and all of the zones once zones are built. -/
theorem not_all_recorded :
    ¬ ∀ (entries : List BootEntry) (m : MemoryMap) (translator : Translator) (config : ZoneConfig)
        (table : ZoneTable) (metadata : Range) (next : MemoryMap),
      (MemoryMap.ofBootEntries entries).outcome = .ok m →
      (build m translator config).outcome = .ok (.ok (table, metadata), next) →
      (∀ addr, metadata.Holds addr → next.Covers .allocatorMetadata addr ∧ ¬ next.Covers .usable addr) ∧
        (∀ z ∈ table.zones, ∀ addr, z.range.Holds addr → next.Covers .usable addr) ∧
        ∀ addr, next.Covers .usable addr ↔ m.Covers .usable addr ∧ ¬ metadata.Holds addr := by
  intro truthful
  have computed : ((MemoryMap.ofBootEntries filled).outcome.toOption.bind fun m =>
      (build m (.directMap 0) {}).outcome.toOption.bind fun made => made.1.toOption.map fun parts =>
        decide (parts.2 = ⟨4096, 4096⟩ ∧ ∀ r ∈ (made.2.of .allocatorMetadata).ranges,
          ¬ (r.base ≤ 4096 ∧ 4096 < r.base + r.size))) = some true := by
    decide +kernel
  obtain ⟨m, read, computed⟩ := Option.bind_eq_some_iff.mp computed
  obtain ⟨⟨answer, next⟩, made, computed⟩ := Option.bind_eq_some_iff.mp computed
  obtain ⟨⟨table, metadata⟩, valid, holds⟩ := Option.map_eq_some_iff.mp computed
  obtain rfl : answer = .ok (table, metadata) := toOption_eq_some.mp valid
  obtain ⟨rfl, outside⟩ := of_decide_eq_true holds
  obtain ⟨shown, _⟩ := truthful _ m _ _ table _ next (toOption_eq_some.mp read) (toOption_eq_some.mp made)
  obtain ⟨r, member, covers⟩ := (shown 4096 ⟨Nat.le_refl _, by decide⟩).1
  exact outside r member covers

end ZonedMemory.ZoneTable
