import Mathlib.Algebra.BigOperators.Ring.List
import ZonedMemory.Proofs.MemoryMap.Reclassification
import ZonedMemory.Proofs.ZoneTable.Pieces

namespace ZonedMemory

/-!
When zones can be built. The records of all pages fit into one of the pieces, because there are few
pieces and a record is much smaller than its page. They leave no page over just if there is only one.
-/

namespace ZoneTable

/-- The bytes that the records of so many pages take up, in whole pages. -/
def recordBytes (pages : Nat) : Nat := (pages * PageRecord.size + pageSize - 1) / pageSize * pageSize

theorem recordBytes_eq (pages : Nat) : recordBytes pages = (pages + 511) / 512 * pageSize := by
  change (pages * 8 + 4096 - 1) / 4096 * 4096 = (pages + 511) / 512 * 4096
  omega

/-- The records of one page fill a page, those of more pages take up fewer pages than there are. -/
theorem recordBytes_lt {pages : Nat} (several : 1 < pages) : recordBytes pages < pages * pageSize := by
  rw [recordBytes_eq]
  change (pages + 511) / 512 * 4096 < pages * 4096
  omega

theorem le_records (pages : Nat) : pages ≤ recordBytes pages / PageRecord.size := by
  change pages ≤ (pages * 8 + 4096 - 1) / 4096 * 4096 / 8
  omega

/-- Pieces that zones can be made of. -/
structure Buildable (translator : Translator) (ranges : List Range) : Prop extends Pieces ranges where
  notEmpty : ranges ≠ []
  size : ranges.length ≤ capacity
  some : ∀ r ∈ ranges, 0 < r.size
  words : ∀ r ∈ ranges, r.base + r.size < 2 ^ 64
  few : ∀ r ∈ ranges, r.pageCount < PageRecord.noLink
  reached : ∀ r ∈ ranges, ∃ place, translator.toVirtual r.base = .ok place

variable {config : ZoneConfig} {translator : Translator} {m next : MemoryMap} {host metadata range : Range}
  {ranges left : List Range} {required records index : Nat} {zones : List Zone}

theorem Pieces.size_eq (whole : Pieces ranges) (member : range ∈ ranges) :
    range.pageCount * pageSize = range.size :=
  Nat.div_mul_cancel (whole.paged range member).2

theorem Pieces.sum_eq (whole : Pieces ranges) :
    (ranges.map Range.pageCount).sum * pageSize = (ranges.map Range.size).sum := by
  rw [← List.sum_map_mul_right]
  exact congrArg List.sum (List.map_congr_left fun r member => whole.size_eq member)

namespace Buildable

theorem sum_pos (buildable : Buildable translator ranges) : 0 < (ranges.map Range.pageCount).sum := by
  obtain ⟨r, member⟩ := List.exists_mem_of_ne_nil ranges buildable.notEmpty
  have some : 0 < r.pageCount * pageSize := by
    rw [buildable.size_eq member]
    exact buildable.some r member
  exact (Nat.pos_of_mul_pos_right some).trans_le (List.le_sum_of_mem (List.mem_map_of_mem member))

/-- If every piece were too short for the records, then all of them would have fewer pages together than
have to be recorded. -/
theorem exists_holding (buildable : Buildable translator ranges) :
    ∃ r ∈ ranges, recordBytes (ranges.map Range.pageCount).sum ≤ r.size := by
  have some := buildable.sum_pos
  by_contra short
  have bound : ∀ pages ∈ ranges.map Range.pageCount,
      pages ≤ ((ranges.map Range.pageCount).sum + 511) / 512 - 1 := by
    intro pages listed
    obtain ⟨r, member, rfl⟩ := List.mem_map.mp listed
    have shorter : r.size < recordBytes (ranges.map Range.pageCount).sum :=
      Nat.lt_of_not_le fun fits => short ⟨r, member, fits⟩
    rw [recordBytes_eq, ← buildable.size_eq member] at shorter
    exact Nat.le_sub_one_of_lt (Nat.lt_of_mul_lt_mul_right shorter)
  have together := List.sum_le_card_nsmul _ _ bound
  rw [List.length_map, Nat.nsmul_eq_mul] at together
  have few := Nat.mul_le_mul_right (((ranges.map Range.pageCount).sum + 511) / 512 - 1) buildable.size
  change _ ≤ 32 * _ at few
  omega

/-- The bytes that are required are worked out without leaving the words. -/
theorem required_eq (buildable : Buildable translator ranges) :
    Word.sum (ranges.map Range.pageCount) = .ok (ranges.map Range.pageCount).sum ∧
      Word.mul (ranges.map Range.pageCount).sum PageRecord.size =
        .ok ((ranges.map Range.pageCount).sum * PageRecord.size) ∧
      Word.nextMultiple ((ranges.map Range.pageCount).sum * PageRecord.size) pageSize =
        .ok (recordBytes (ranges.map Range.pageCount).sum) := by
  have total := Range.total_word buildable.words buildable.sorted
  rw [← buildable.sum_eq] at total
  generalize summed : (ranges.map Range.pageCount).sum = pages at *
  change pages * 4096 < 2 ^ 64 at total
  have bytes : pages * PageRecord.size + pageSize ≤ 2 ^ 64 := by
    change pages * 8 + 4096 ≤ 2 ^ 64
    omega
  have positive := pageSize_pos
  obtain ⟨required, rounded⟩ := Word.nextMultiple_exists positive bytes
  obtain rfl := Word.nextMultiple_eq rounded
  exact ⟨Word.sum_eq_ok.mpr ⟨by omega, summed.symm⟩, Word.mul_eq (by omega), rounded⟩

end Buildable

theorem smallestHolding_exists (member : range ∈ ranges) (fits : required ≤ range.size) :
    ∃ host, smallestHolding required ranges = some host := by
  have roomy : range ∈ ranges.filter fun r => required ≤ r.size := by simpa using ⟨member, fits⟩
  rw [← Option.ne_none_iff_exists', smallestHolding_eq_argmin, Ne, List.argmin_eq_none]
  exact List.ne_nil_of_mem roomy

theorem shrink_exists (member : host ∈ ranges) (fits : required ≤ host.size)
    (word : host.base + host.size < 2 ^ 64) : ∃ left, shrink host required ranges = .ok left := by
  induction ranges with
  | nil => cases member
  | cons first rest ih =>
      unfold shrink
      split
      · have start := Range.stop_eq (r := ⟨host.base, required⟩) (show host.base + required < 2 ^ 64 by omega)
        have bounds : host.base + required ≤ host.base + host.size := by omega
        simp only [start, Range.stop_eq word, ok_bind, Range.ofBounds_eq_ok.mpr ⟨bounds, rfl⟩]
        exact ⟨_, rfl⟩
      · rename_i different
        obtain ⟨left, shrunk⟩ := ih ((List.mem_cons.mp member).resolve_left (Ne.symm different))
        rw [shrunk]
        exact ⟨first :: left, rfl⟩

/-- What one piece is shortened by is missing from the pages of all. -/
theorem shrink_pages (member : host ∈ ranges) (fits : required ≤ host.size) (whole : Pieces ranges)
    (paged : pageSize ∣ required) (shrunk : shrink host required ranges = .ok left) :
    (left.map Range.pageCount).sum * pageSize + required = (ranges.map Range.pageCount).sum * pageSize := by
  obtain ⟨leftPieces, _⟩ := shrink_sound whole member fits paged shrunk
  rw [leftPieces.sum_eq, whole.sum_eq]
  obtain ⟨front, back, rfl, rfl⟩ := shrink_eq_ok member shrunk
  simp only [List.map_append, List.map_cons, List.sum_append, List.sum_cons]
  omega

theorem accepted_paged (paged : range.Paged) (some : 0 < range.size)
    (word : range.base + range.size < 2 ^ 64) (few : range.pageCount < PageRecord.noLink) :
    Buddy.Accepted range range.pageCount := by
  have pages : range.wholePages = range.pageCount := by
    have size := congrArg Range.size paged.whole
    exact (Nat.div_eq_of_eq_mul_left pageSize_pos size.symm).symm
  have page := Nat.le_of_dvd some paged.2
  exact ⟨word, by omega, pages.le, pages ▸ few⟩

/-- Zones can be made of pieces as long as there are records for all of their pages. -/
theorem zonesOver_answers (paged : ∀ r ∈ ranges, r.Paged) (words : ∀ r ∈ ranges, r.base + r.size < 2 ^ 64)
    (few : ∀ r ∈ ranges, r.pageCount < PageRecord.noLink)
    (enough : (ranges.map Range.pageCount).sum ≤ records) :
    ∃ zones, (zonesOver config required records index ranges).Answers (.ok zones) := by
  induction ranges generalizing records index with
  | nil => exact ⟨[], .pure _⟩
  | cons first rest ih =>
      obtain ⟨firstPaged, restPaged⟩ := List.forall_mem_cons.mp paged
      obtain ⟨firstWord, restWords⟩ := List.forall_mem_cons.mp words
      obtain ⟨firstFew, restFew⟩ := List.forall_mem_cons.mp few
      rw [List.map_cons, List.sum_cons] at enough
      rw [zonesOver_cons]
      split
      · exact ih restPaged restWords restFew (by omega)
      · rename_i notEmpty
        have some : 0 < first.size := Nat.pos_of_ne_zero fun none => notEmpty (beq_iff_eq.mpr none)
        obtain ⟨buddy, created, _⟩ :=
          Buddy.create_settled (accepted_paged firstPaged some firstWord firstFew)
        obtain ⟨text, written⟩ := Range.text_written firstWord
        have line : (Traced.report (.zone (.built index (config.capabilitiesAt first.base) first))).Answers () :=
          .report ⟨_, by rw [Event.text, ZoneEvent.text, written]; rfl⟩
        obtain ⟨zones, later⟩ : ∃ zones, (zonesOver config required (records - first.pageCount)
            (index + 1) rest).Answers (.ok zones) := ih restPaged restWords restFew (by omega)
        rw [if_neg (show ¬ records < first.pageCount by omega)]
        exact ⟨_, (Traced.Answers.lift created).bind (line.bind (later.bind (.pure _)))⟩

/-- The pieces that are left beside the records are no larger than they were. -/
theorem zonesOver_left (buildable : Buildable translator ranges) (member : host ∈ ranges)
    (fits : required ≤ host.size) (whole : Pieces left) (shrunk : shrink host required ranges = .ok left)
    (enough : (left.map Range.pageCount).sum ≤ records) :
    ∃ zones, (zonesOver config required records index left).Answers (.ok zones) := by
  have inside (r : Range) (listed : r ∈ left) :
      ∃ piece ∈ ranges, piece.base ≤ r.base ∧ r.base + r.size ≤ piece.base + piece.size :=
    shrink_inside member fits shrunk listed
  refine zonesOver_answers whole.paged (fun r listed => ?_) (fun r listed => ?_) enough
  · obtain ⟨piece, own, _, upper⟩ := inside r listed
    exact upper.trans_lt (buildable.words piece own)
  · obtain ⟨piece, own, lower, upper⟩ := inside r listed
    have shorter : r.size ≤ piece.size := by omega
    exact (Nat.div_le_div_right shorter).trans_lt (buildable.few piece own)

theorem recordMetadata_written (word : metadata.base + metadata.size < 2 ^ 64) :
    (recordMetadata m metadata).Written := by
  obtain ⟨text, written⟩ := Range.text_written word
  apply Traced.Written.compute
  intro result moved
  obtain ⟨answer, left⟩ := result
  cases answer with
  | ok done => exact .pure _
  | error refusal => exact .answer ⟨_, by rw [Event.text, ZoneEvent.text, written]; rfl⟩

theorem recordMetadata_exists (normal : m.Normal) (bounded : RegionSet.Bounded m.usable.ranges)
    (boundedToo : RegionSet.Bounded (m.of .allocatorMetadata).ranges)
    (word : metadata.base + metadata.size < 2 ^ 64) :
    ∃ next, (recordMetadata m metadata).outcome = .ok next := by
  obtain ⟨answer, next, moved⟩ : ∃ answer next,
      m.reclassify metadata .usable .allocatorMetadata = .ok (answer, next) :=
    MemoryMap.reclassify_exists normal bounded boundedToo word
  refine ⟨next, ?_⟩
  rw [recordMetadata, Traced.outcome_bind, Traced.outcome_lift, moved]
  cases answer with
  | ok done => rfl
  | error refusal => rfl

/-- What is answered once zones are made. -/
def concluded (zones : List Zone) (metadata : Range) : Except InitError (ZoneTable × Range) :=
  match zones with
  | [] => .error .noUsableMemory
  | first :: rest => .ok (ofZones (first :: rest), metadata)

/-- Without zones every piece is used up, which the records of more than one page cannot do. -/
theorem zones_eq_nil_iff (whole : Pieces left) {pages : Nat}
    (same : zones.map Zone.range = left.filter fun r => !r.isEmpty)
    (remaining : (left.map Range.pageCount).sum * pageSize + recordBytes pages = pages * pageSize)
    (some : 0 < pages) : zones = [] ↔ pages ≤ 1 := by
  have used : zones = [] ↔ (left.map Range.size).sum = 0 := by
    rw [← List.map_eq_nil_iff (f := Zone.range), same, List.filter_eq_nil_iff, List.sum_eq_zero_iff]
    simp [Range.isEmpty]
  rw [used, ← whole.sum_eq]
  constructor
  · intro nothing
    by_contra several
    have := recordBytes_lt (Nat.lt_of_not_le several)
    omega
  · intro few
    obtain rfl : pages = 1 := Nat.le_antisymm few some
    have one : recordBytes 1 = 1 * pageSize := rfl
    omega

/-- Whether there are zones depends on the number of pages only, and not on the memory map, where the
records are entered. -/
theorem buildOver_outcome (m : MemoryMap) (config : ZoneConfig)
    (buildable : Buildable translator ranges) :
    ∃ metadata zones, metadata.base + metadata.size < 2 ^ 64 ∧
      (zones = [] ↔ (ranges.map Range.pageCount).sum ≤ 1) ∧
      (buildOver m translator config ranges).Written ∧
      (buildOver m translator config ranges).outcome = do
        let next ← (recordMetadata m metadata).outcome
        return (concluded zones metadata, next) := by
  obtain ⟨r, listed, holding⟩ := buildable.exists_holding
  obtain ⟨counted, scaled, rounded⟩ := buildable.required_eq
  have some := buildable.sum_pos
  generalize summed : (ranges.map Range.pageCount).sum = pages at *
  obtain ⟨host, chosen⟩ := smallestHolding_exists listed holding
  obtain ⟨member, fits⟩ := smallestHolding_mem chosen
  have word : host.base + recordBytes pages < 2 ^ 64 :=
    (Nat.add_le_add_left fits _).trans_lt (buildable.words host member)
  obtain ⟨left, shrunk⟩ := shrink_exists member fits (buildable.words host member)
  obtain ⟨place, pointed⟩ := buildable.reached host member
  have paged : pageSize ∣ recordBytes pages := Nat.dvd_mul_left _ _
  obtain ⟨whole, _⟩ := shrink_sound buildable.toPieces member fits paged shrunk
  have remaining := shrink_pages member fits buildable.toPieces paged shrunk
  rw [summed] at remaining
  have enough : (left.map Range.pageCount).sum ≤ recordBytes pages / PageRecord.size :=
    (Nat.le_of_mul_le_mul_right (Nat.le.intro remaining) pageSize_pos).trans (le_records pages)
  obtain ⟨zones, made⟩ : ∃ zones, (zonesOver config (recordBytes pages)
      (recordBytes pages / PageRecord.size) 0 left).Answers (.ok zones) :=
    zonesOver_left buildable member fits whole shrunk enough
  obtain ⟨same, _⟩ := zonesOver_sound whole.paged made.outcome
  refine ⟨⟨host.base, recordBytes pages⟩, zones, word, zones_eq_nil_iff whole same remaining some, ?_, ?_⟩
  · obtain ⟨text, written⟩ := Range.text_written (r := ⟨host.base, recordBytes pages⟩) word
    simp only [buildOver, counted, scaled, rounded, chosen, shrunk, pointed, Traced.lift_ok_bind]
    apply Traced.Written.bind
    · exact .report ⟨_, by rw [Event.text, ZoneEvent.text, written]; rfl⟩
    · intro _ _
      apply (recordMetadata_written word).bind
      intro next _
      apply made.toWritten.bind
      intro answer _
      rcases answer with reason | _ | _
      · exact .pure _
      · exact .pure _
      · exact .pure _
  · simp only [buildOver, counted, scaled, rounded, chosen, shrunk, pointed, Traced.lift_ok_bind,
      Traced.outcome_bind, Traced.outcome_report, made.outcome, ok_bind]
    cases zones with
    | nil => rfl
    | cons first rest => rfl

/-- What building answers, by the number of pieces of usable memory and the number of their pages. -/
structure Decided (pieces pages : Nat) (answer : Except InitError (ZoneTable × Range)) : Prop where
  crowded : capacity < pieces → answer = .error (.tooManyZones pieces)
  unusable : answer = .error .noUsableMemory ↔ pages ≤ 1
  zoned : pieces ≤ capacity → 1 < pages → ∃ table metadata, answer = .ok (table, metadata)
  housed : ∀ required, answer ≠ .error (.metadataExhausted required)

theorem Decided.concluded {pieces pages : Nat} (room : pieces ≤ capacity) (used : zones = [] ↔ pages ≤ 1) :
    Decided pieces pages (concluded zones metadata) := by
  cases zones with
  | nil =>
      have few := used.mp rfl
      exact ⟨fun crowded => absurd room (Nat.not_le.mpr crowded), iff_of_true rfl few,
        fun _ several => absurd few (Nat.not_le.mpr several), fun required => nofun⟩
  | cons first rest =>
      have several : ¬ pages ≤ 1 := fun few => List.cons_ne_nil _ _ (used.mpr few)
      exact ⟨fun crowded => absurd room (Nat.not_le.mpr crowded), iff_of_false nofun several,
        fun _ _ => ⟨_, _, rfl⟩, fun required => nofun⟩

theorem Decided.ofNone : Decided 0 0 (.error .noUsableMemory) :=
  ⟨nofun, iff_of_true rfl (Nat.zero_le 1), fun _ several => absurd several (by decide), fun _ => nofun⟩

theorem Decided.ofCrowd {pieces pages : Nat} (crowded : capacity < pieces) (paged : pieces ≤ pages) :
    Decided pieces pages (.error (.tooManyZones pieces)) := by
  have many : ¬ pages ≤ 1 := by
    have several : 1 < capacity := by decide
    omega
  exact ⟨fun _ => rfl, iff_of_false nofun many, fun room => absurd crowded (Nat.not_lt.mpr room),
    fun _ => nofun⟩

/-- Every piece has a page. -/
theorem length_le_pages (whole : Pieces ranges) (some : ∀ r ∈ ranges, 0 < r.size) :
    ranges.length ≤ (ranges.map Range.pageCount).sum := by
  have positive : ∀ pages ∈ ranges.map Range.pageCount, 1 ≤ pages := by
    intro pages listed
    obtain ⟨r, member, rfl⟩ := List.mem_map.mp listed
    apply Nat.pos_of_mul_pos_right (b := pageSize)
    rw [whole.size_eq member]
    exact some r member
  have least := List.card_nsmul_le_sum _ _ positive
  rwa [List.length_map, Nat.nsmul_eq_mul, Nat.mul_one] at least

theorem build_eq (split : pieces config m.usable.ranges = .ok ranges) :
    build m translator config =
      if ranges.isEmpty then
        pure (.error .noUsableMemory, m)
      else if capacity < ranges.length then
        pure (.error (.tooManyZones ranges.length), m)
      else
        buildOver m translator config ranges := by
  rw [build, split, Traced.lift_ok_bind]

/-- Pieces of usable memory that ends below the last page are fit for zones if they are not too many. -/
theorem Buildable.ofPieces (normal : RegionSet.Normal m.usable.ranges)
    (split : pieces config m.usable.ranges = .ok ranges) (notEmpty : ranges ≠ [])
    (size : ranges.length ≤ capacity) (bounded : RegionSet.Bounded m.usable.ranges)
    (few : ∀ usable ∈ m.usable.ranges, ∀ flags,
      {frame | usable.HasFrame frame ∧ config.Gives flags frame}.ncard < PageRecord.noLink)
    (reached : ∀ addr, m.Covers .usable addr → ∃ place, translator.toVirtual addr = .ok place) :
    Buildable translator ranges := by
  obtain ⟨whole, bounds⟩ := pieces_sound normal split
  refine ⟨whole, notEmpty, size, fun piece member => (bounds piece member).1, fun piece member => ?_,
    fun piece member => (pieces_sliced split).few whole few member, fun piece member => ?_⟩
  · obtain ⟨_, usable, listed, _, upper⟩ := bounds piece member
    exact upper.trans_lt (bounded usable listed)
  · obtain ⟨positive, usable, listed, lower, upper⟩ := bounds piece member
    exact reached piece.base ⟨usable, listed, lower, by omega⟩

/-- Building comes to what the number of pieces and the number of their pages decide, and comes to it in
any case unless it has to enter the records beside a range that ends past the address space. No usable
range may reach into the last page, nor begin in the middle of the page before it. -/
theorem build_decided (built : m.Built)
    (below : ∀ usable ∈ m.usable.ranges, usable.base + usable.size + pageSize < 2 ^ 64)
    (starts : ∀ usable ∈ m.usable.ranges, usable.base + 2 * pageSize ≤ 2 ^ 64)
    (few : ∀ usable ∈ m.usable.ranges, ∀ flags,
      {frame | usable.HasFrame frame ∧ config.Gives flags frame}.ncard < PageRecord.noLink)
    (reached : ∀ addr, m.Covers .usable addr → ∃ place, translator.toVirtual addr = .ok place) :
    (RegionSet.Bounded (m.of .allocatorMetadata).ranges ∨ capacity < {part | m.Slice config part}.ncard ∨
        {frame | m.Zonable config frame}.ncard = 0 →
      ∃ answer next, (build m translator config).Answers (answer, next)) ∧
    ∀ answer next, (build m translator config).outcome = .ok (answer, next) →
      Decided {part | m.Slice config part}.ncard {frame | m.Zonable config frame}.ncard answer := by
  have bounded : RegionSet.Bounded m.usable.ranges := by
    intro usable listed
    have := below usable listed
    omega
  have normal := built.normal .usable
  obtain ⟨ranges, split⟩ := pieces_exists config below starts
  obtain ⟨whole, bounds⟩ := pieces_sound normal split
  have some (piece : Range) (member : piece ∈ ranges) : 0 < piece.size := (bounds piece member).1
  have sliced := pieces_sliced split
  rw [sliced.ncard_slices whole some normal, sliced.ncard_zonable whole, build_eq split]
  split
  · rename_i none
    obtain rfl := List.isEmpty_iff.mp none
    refine ⟨fun _ => ⟨_, _, .pure _⟩, fun answer next answered => ?_⟩
    obtain ⟨rfl, rfl⟩ := Prod.mk.inj (Except.ok.inj answered)
    exact .ofNone
  · rename_i notEmpty
    split
    · rename_i crowded
      refine ⟨fun _ => ⟨_, _, .pure _⟩, fun answer next answered => ?_⟩
      obtain ⟨rfl, rfl⟩ := Prod.mk.inj (Except.ok.inj answered)
      exact .ofCrowd crowded (length_le_pages whole some)
    · rename_i room
      have buildable : Buildable translator ranges := .ofPieces normal split
        (fun none => notEmpty (List.isEmpty_iff.mpr none)) (Nat.le_of_not_lt room) bounded few reached
      obtain ⟨metadata, zones, word, used, written, outcome⟩ := buildOver_outcome m config buildable
      refine ⟨fun enterable => ?_, fun answer next answered => ?_⟩
      · have metadataBounded : RegionSet.Bounded (m.of .allocatorMetadata).ranges := by
          rcases enterable with metadataBounded | crowded | none
          · exact metadataBounded
          · exact absurd crowded room
          · exact absurd none buildable.sum_pos.ne'
        obtain ⟨next, recorded⟩ := recordMetadata_exists built.normal bounded metadataBounded word
        exact ⟨concluded zones metadata, next, written, by rw [outcome, recorded]; rfl⟩
      · rw [outcome] at answered
        obtain ⟨recorded, _, answered⟩ := bind_eq_ok.mp answered
        obtain ⟨rfl, rfl⟩ := Prod.mk.inj (Except.ok.inj answered)
        exact .concluded (Nat.le_of_not_lt room) used

theorem build_decided_eight :
    PageAllocator.eightPages.Built ∧
      (∀ usable ∈ PageAllocator.eightPages.usable.ranges, usable.base + usable.size + pageSize < 2 ^ 64) ∧
      (∀ usable ∈ PageAllocator.eightPages.usable.ranges, usable.base + 2 * pageSize ≤ 2 ^ 64) ∧
      (∀ usable ∈ PageAllocator.eightPages.usable.ranges, ∀ flags,
        {frame | usable.HasFrame frame ∧ ZoneConfig.Gives {} flags frame}.ncard < PageRecord.noLink) ∧
      (∀ addr, PageAllocator.eightPages.Covers .usable addr →
        ∃ place, (Translator.directMap 0).toVirtual addr = .ok place) ∧
      ∃ answer next, (build PageAllocator.eightPages (.directMap 0) {}).Answers (answer, next) ∧
        Decided {part | PageAllocator.eightPages.Slice {} part}.ncard
          {frame | PageAllocator.eightPages.Zonable {} frame}.ncard answer := by
  have ranges : PageAllocator.eightPages.usable.ranges = [⟨4096, 32768⟩] := rfl
  have below : ∀ usable ∈ PageAllocator.eightPages.usable.ranges,
      usable.base + usable.size + pageSize < 2 ^ 64 := by decide
  have starts : ∀ usable ∈ PageAllocator.eightPages.usable.ranges,
      usable.base + 2 * pageSize ≤ 2 ^ 64 := by decide
  have few : ∀ usable ∈ PageAllocator.eightPages.usable.ranges, ∀ flags,
      {frame | usable.HasFrame frame ∧ ZoneConfig.Gives {} flags frame}.ncard < PageRecord.noLink := by
    intro usable listed flags
    rw [ranges] at listed
    obtain rfl := List.mem_singleton.mp listed
    have inside : {frame | Range.HasFrame ⟨4096, 32768⟩ frame ∧ ZoneConfig.Gives {} flags frame} ⊆
        Finset.range 9 := by
      intro frame part
      obtain ⟨_, upper⟩ := part.1
      change (frame + 1) * 4096 ≤ 36864 at upper
      exact Finset.mem_range.mpr (by omega)
    have bound := Set.ncard_le_ncard inside
    rw [Set.ncard_coe_finset, Finset.card_range] at bound
    exact bound.trans_lt (by decide)
  have reached : ∀ addr, PageAllocator.eightPages.Covers .usable addr →
      ∃ place, (Translator.directMap 0).toVirtual addr = .ok place := fun addr _ => ⟨_, rfl⟩
  obtain ⟨answers, decided⟩ := build_decided PageAllocator.eightPages_built below starts few reached
  obtain ⟨answer, next, answered⟩ := answers (.inl (show RegionSet.Bounded [] from List.forall_mem_nil _))
  exact ⟨PageAllocator.eightPages_built, below, starts, few, reached, answer, next, answered,
    decided answer next answered.outcome⟩

/-- A single usable byte in the last page but one. -/
def sliver : MemoryMap := MemoryMap.empty.set .usable ⟨[⟨2 ^ 64 - 8191, 1⟩]⟩

/-- There are maps without a usable page that building does not refuse but stumbles over. -/
theorem not_all_decided :
    ¬ ∀ (m : MemoryMap) (translator : Translator) (config : ZoneConfig), m.Built →
      (∀ usable ∈ m.usable.ranges, usable.base + usable.size + pageSize < 2 ^ 64) →
      (∀ usable ∈ m.usable.ranges, ∀ flags,
        {frame | usable.HasFrame frame ∧ config.Gives flags frame}.ncard < PageRecord.noLink) →
      (∀ addr, m.Covers .usable addr → ∃ place, translator.toVirtual addr = .ok place) →
      {frame | m.Zonable config frame}.ncard ≤ 1 →
      ∃ next, (build m translator config).outcome = .ok (.error .noUsableMemory, next) := by
  intro decided
  have ranges : sliver.usable.ranges = [⟨2 ^ 64 - 8191, 1⟩] := rfl
  have built : sliver.Built := .insert .empty
    (show MemoryMap.empty.insert .usable ⟨2 ^ 64 - 8191, 1⟩ = .ok (.ok (), sliver) from rfl)
  have frameless : ∀ usable ∈ sliver.usable.ranges, ∀ frame, ¬ usable.HasFrame frame := by
    intro usable listed frame has
    rw [ranges] at listed
    obtain rfl := List.mem_singleton.mp listed
    obtain ⟨lower, upper⟩ := has
    change 2 ^ 64 - 8191 ≤ frame * 4096 at lower
    change (frame + 1) * 4096 ≤ 2 ^ 64 - 8191 + 1 at upper
    omega
  have few : ∀ usable ∈ sliver.usable.ranges, ∀ flags,
      {frame | usable.HasFrame frame ∧ ZoneConfig.Gives {} flags frame}.ncard < PageRecord.noLink := by
    intro usable listed flags
    have none : {frame | usable.HasFrame frame ∧ ZoneConfig.Gives {} flags frame} = ∅ :=
      Set.eq_empty_of_forall_notMem fun frame part => frameless usable listed frame part.1
    rw [none, Set.ncard_empty]
    decide
  have unusable : {frame | sliver.Zonable {} frame} = ∅ := by
    refine Set.eq_empty_of_forall_notMem fun frame zonable => ?_
    obtain ⟨usable, listed, has, _⟩ := zonable
    exact frameless usable listed frame has
  obtain ⟨next, answered⟩ := decided sliver (.directMap 0) {} built (by decide) few (fun addr _ => ⟨_, rfl⟩)
    (by rw [unusable, Set.ncard_empty]; decide)
  have faulted : (build sliver (.directMap 0) {}).outcome.toOption.isNone = true := by decide +kernel
  rw [answered] at faulted
  cases faulted

end ZoneTable

end ZonedMemory
