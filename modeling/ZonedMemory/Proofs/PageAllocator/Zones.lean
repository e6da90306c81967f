import ZonedMemory.PageAllocator
import ZonedMemory.Proofs.ZoneTable.Build

namespace ZonedMemory.PageAllocator

/-!
The page allocator over its zones. A request that is refused by a zone leaves the zone as it was, so
the zones tried after it are still those of the table; one that is granted changes one zone only.
-/

/-- The zones serve the live blocks and keep clear of the page records. -/
structure Sound (a : PageAllocator) (live : List Block) : Prop where
  serving : ZoneTable.Serving a.zones.zones live
  housed : ZoneTable.Housed a.zones.zones a.metadata

/-- Two states of one page allocator. -/
structure Kin (a after : PageAllocator) : Prop where
  metadata : after.metadata = a.metadata
  config : after.config = a.config
  fixed : after.zones.zones.map Zone.fixed = a.zones.zones.map Zone.fixed

def Covers (a : PageAllocator) (addr : Nat) : Prop := ∃ z ∈ a.zones.zones, z.Covers addr

/-- The block starts in a zone with one of the capabilities. -/
def Provides (a : PageAllocator) (flags : ZoneFlags) (x : Block) : Prop :=
  ∃ z ∈ a.zones.zones, z.flags.intersects flags = true ∧ z.Owns x

variable {a after : PageAllocator} {live left : List Block} {z : Zone} {x y : Block} {addr : Nat}
  {flags : ZoneFlags}

theorem Kin.refl (a : PageAllocator) : Kin a a := ⟨rfl, rfl, rfl⟩

theorem Kin.trans {first second third : PageAllocator} (before : Kin first second)
    (later : Kin second third) : Kin first third :=
  ⟨later.metadata.trans before.metadata, later.config.trans before.config,
    later.fixed.trans before.fixed⟩

theorem Kin.zone (kin : Kin a after) (member : z ∈ a.zones.zones) :
    ∃ other ∈ after.zones.zones, other.fixed = z.fixed := by
  have listed : z.fixed ∈ after.zones.zones.map Zone.fixed := by
    rw [kin.fixed]
    exact List.mem_map_of_mem member
  exact List.mem_map.mp listed

theorem Kin.symm (kin : Kin a after) : Kin after a :=
  ⟨kin.metadata.symm, kin.config.symm, kin.fixed.symm⟩

theorem Kin.covers (kin : Kin a after) (covers : a.Covers addr) : after.Covers addr := by
  obtain ⟨z, member, covers⟩ := covers
  obtain ⟨other, otherMember, same⟩ := kin.zone member
  refine ⟨other, otherMember, ?_⟩
  rwa [Zone.Covers, Zone.range_eq same]

theorem Kin.provides (kin : Kin a after) (provides : a.Provides flags x) : after.Provides flags x := by
  obtain ⟨z, member, matching, owns⟩ := provides
  obtain ⟨other, otherMember, same⟩ := kin.zone member
  exact ⟨other, otherMember, Zone.flags_eq same ▸ matching, (Zone.owns_iff same).mpr owns⟩

namespace Sound

theorem withZones {zones : ZoneTable} (sound : a.Sound live) (same : zones.zones = a.zones.zones) :
    Sound { a with zones := zones } live :=
  ⟨same ▸ sound.serving, same ▸ sound.housed⟩

theorem kin (sound : a.Sound live) (kin : Kin a after)
    (serving : ZoneTable.Serving after.zones.zones left) : after.Sound left := by
  refine ⟨serving, fun z member => ?_, ?_⟩
  · obtain ⟨before, beforeMember, same⟩ := kin.symm.zone member
    rw [kin.metadata, ← Zone.range_eq same]
    exact sound.housed.clear before beforeMember
  · have pages : after.zones.zones.map Zone.totalPages = a.zones.zones.map Zone.totalPages := by
      have totals := congrArg (List.map fun parts => parts.2.2.2) kin.fixed
      rw [List.map_map, List.map_map] at totals
      exact totals
    rw [pages, kin.metadata]
    exact sound.housed.records

theorem perm (sound : a.Sound live) (same : live.Perm left) : a.Sound left :=
  ⟨sound.serving.perm same, sound.housed⟩

theorem inside (sound : a.Sound live) (member : x ∈ live) : ∃ z ∈ a.zones.zones,
    z.range.base ≤ x.addr ∧ x.addr + x.bytes ≤ z.range.base + z.range.size := by
  obtain ⟨z, listed, owns⟩ := sound.serving.owned x member
  exact ⟨z, listed, (sound.serving.sound z listed).inside member owns⟩

theorem covers (sound : a.Sound live) (member : x ∈ live) (lower : x.addr ≤ addr)
    (upper : addr < x.addr + x.bytes) : a.Covers addr := by
  obtain ⟨z, listed, inside⟩ := sound.inside member
  exact ⟨z, listed, by omega, by omega⟩

/-- The zone that a live block lies in has it down as allocated. -/
theorem allocated (sound : a.Sound live) (member : x ∈ live) : ∃ z ∈ a.zones.zones,
    z.Covers x.addr ∧ z.buddy.blockState? x.addr = .ok (some (.allocated x.order)) := by
  obtain ⟨z, listed, owns⟩ := sound.serving.owned x member
  have zone := sound.serving.sound z listed
  exact ⟨z, listed, owns, zone.settled.allocated_of_live (zone.mem_filter.mpr ⟨member, owns⟩)⟩

theorem covers_page (sound : a.Sound live) {place : Nat} (covers : a.Covers addr)
    (lower : addr / pageSize * pageSize ≤ place) (upper : place < addr / pageSize * pageSize + pageSize) :
    a.Covers place := by
  obtain ⟨z, listed, base, stop⟩ := covers
  have zone := sound.serving.sound z listed
  refine ⟨z, listed, ?_⟩
  simp only [Zone.Covers, zone.range, zone.placed.base, zone.placed.size] at *
  change z.buddy.firstFrame * 4096 ≤ addr at base
  change addr < z.buddy.firstFrame * 4096 + z.buddy.pages.size * 4096 at stop
  change addr / 4096 * 4096 ≤ place at lower
  change place < addr / 4096 * 4096 + 4096 at upper
  change z.buddy.firstFrame * 4096 ≤ place ∧
    place < z.buddy.firstFrame * 4096 + z.buddy.pages.size * 4096
  omega

theorem covers_word (sound : a.Sound live) (covers : a.Covers addr) : addr < 2 ^ 64 := by
  obtain ⟨z, listed, _, stop⟩ := covers
  have word := (sound.serving.sound z listed).word
  omega

/-- Zones end a page before the end of the address space. -/
theorem page_word (sound : a.Sound live) (covers : a.Covers addr) :
    addr / pageSize * pageSize + 2 * pageSize ≤ 2 ^ 64 := by
  obtain ⟨z, listed, base, stop⟩ := covers
  have zone := sound.serving.sound z listed
  have word := zone.word
  simp only [zone.range, zone.placed.base, zone.placed.size] at *
  change addr < z.buddy.firstFrame * 4096 + z.buddy.pages.size * 4096 at stop
  change z.buddy.firstFrame * 4096 + z.buddy.pages.size * 4096 < 2 ^ 64 at word
  change addr / 4096 * 4096 + 2 * 4096 ≤ 2 ^ 64
  omega

theorem word (sound : a.Sound live) (member : x ∈ live) : x.addr + x.bytes + pageSize ≤ 2 ^ 64 := by
  obtain ⟨z, listed, inside⟩ := sound.inside member
  have word := (sound.serving.sound z listed).word
  rw [x.addr_add_bytes] at *
  have stop : x.stop * 4096 < 2 ^ 64 := inside.2.trans_lt word
  change x.stop * 4096 + 4096 ≤ 2 ^ 64
  omega

theorem setZone_self (sound : a.Sound live) (member : z ∈ a.zones.zones) :
    a.zones.setZone z = a.zones := by
  have found := sound.serving.index_get member
  obtain ⟨bound, here⟩ := List.getElem?_eq_some_iff.mp found
  have same : a.zones.zones.set z.index z = a.zones.zones := by
    conv_lhs => rhs; rw [← here]
    exact List.set_getElem_self bound
  rw [ZoneTable.setZone, same]

theorem setZone_kin {zone : Zone} (sound : a.Sound live) (member : z ∈ a.zones.zones)
    (same : zone.fixed = z.fixed) : Kin a { a with zones := a.zones.setZone zone } := by
  refine ⟨rfl, rfl, ?_⟩
  change (a.zones.zones.set zone.index zone).map Zone.fixed = _
  rw [Zone.index_eq same]
  exact sound.serving.fixed_set member same

/-- No zone but the owner's sees a block come or go. -/
theorem filter_other {other : Zone} (sound : a.Sound live) (member : z ∈ a.zones.zones)
    (otherMember : other ∈ a.zones.zones) (different : other.index ≠ z.index) (owns : z.Owns x) :
    ¬ other.Owns x := by
  intro otherOwns
  exact different (congrArg Zone.index
    (sound.serving.covers_unique otherMember member otherOwns owns))

theorem apart_of_owner (sound : a.Sound live) (member : z ∈ a.zones.zones)
    (inside : z.range.base ≤ x.addr ∧ x.addr + x.bytes ≤ z.range.base + z.range.size)
    (apart : ∀ y ∈ live, z.Owns y → x.Apart y) : ∀ y ∈ live, x.Apart y := by
  intro y inLive
  obtain ⟨owner, ownerMember, owns⟩ := sound.serving.owned y inLive
  by_cases same : z = owner
  · exact apart y inLive (same ▸ owns)
  · have other := (sound.serving.sound owner ownerMember).inside inLive owns
    have separate := sound.serving.separate member ownerMember same
    rw [Block.apart_iff_addr]
    omega

theorem gain {zone : Zone} (sound : a.Sound live) (member : z ∈ a.zones.zones)
    (same : zone.fixed = z.fixed) (owns : z.Owns x) (apart : ∀ y ∈ live, z.Owns y → x.Apart y)
    (after : zone.Sound (x :: live)) : Sound { a with zones := a.zones.setZone zone } (x :: live) := by
  have inside := after.inside (List.mem_cons_self ..) ((Zone.owns_iff same).mpr owns)
  rw [Zone.range_eq same] at inside
  refine sound.kin (sound.setZone_kin member same) ?_
  change ZoneTable.Serving (a.zones.zones.set zone.index zone) _
  rw [Zone.index_eq same]
  refine sound.serving.set member same after ?_ ?_ ?_
  · intro other otherMember different
    have foreign := sound.filter_other member otherMember different owns
    rw [List.filter_cons_of_neg (by simpa using foreign)]
  · intro y inLive
    rcases List.mem_cons.mp inLive with rfl | inLive
    · exact ⟨z, member, owns⟩
    · exact sound.serving.owned y inLive
  · exact List.pairwise_cons.mpr ⟨sound.apart_of_owner member inside apart, sound.serving.apart⟩

theorem lose {zone : Zone} (sound : a.Sound live) (member : z ∈ a.zones.zones)
    (same : zone.fixed = z.fixed) (owns : z.Owns x)
    (after : zone.Sound (live.filter fun y => y.addr ≠ x.addr)) :
    Sound { a with zones := a.zones.setZone zone } (live.filter fun y => y.addr ≠ x.addr) := by
  refine sound.kin (sound.setZone_kin member same) ?_
  change ZoneTable.Serving (a.zones.zones.set zone.index zone) _
  rw [Zone.index_eq same]
  refine sound.serving.set member same after ?_ ?_ (sound.serving.apart.filter _)
  · intro other otherMember different
    rw [List.filter_filter]
    refine List.filter_congr fun y _ => ?_
    have foreign := sound.filter_other member otherMember different owns
    by_cases otherOwns : other.Owns y
    · have elsewhere : y.addr ≠ x.addr := by
        intro equal
        rw [Zone.Owns, equal] at otherOwns
        exact foreign otherOwns
      simp [otherOwns, elsewhere]
    · simp [otherOwns]
  · intro y inLive
    exact sound.serving.owned y (List.mem_filter.mp inLive).1

end Sound

/-- A block that a zone grants comes out of that zone, and only that zone's counters show it. -/
theorem allocateFrom_sound (sound : a.Sound live) (member : z ∈ a.zones.zones) (order align : Nat) :
    (∃ (x : Block) (zone : Zone),
      (a.allocateFrom z order align).outcome =
        .ok (.ok x.addr, { a with zones := a.zones.setZone zone }) ∧
      x.order = order ∧ 2 ^ Nat.clog 2 align ∣ x.addr ∧ z.Owns x ∧
      (zone.fixed = z.fixed ∧ zone.stats = z.stats.recordAllocation order) ∧
      Sound { a with zones := a.zones.setZone zone } (x :: live)) ∨
    ∃ reason, (a.allocateFrom z order align).outcome = .ok (.error reason, a) := by
  rcases Zone.allocate_sound (sound.serving.sound z member) order align with
    ⟨x, zone, answer, sameOrder, aligned, ⟨same, stats⟩, owns, apart, after⟩ | ⟨reason, answer⟩
  · have counted : Zone.fixed { zone with stats := zone.stats.recordAllocation order } = z.fixed := same
    refine .inl ⟨x, { zone with stats := zone.stats.recordAllocation order }, ?_, sameOrder, aligned,
      owns, ⟨counted, congrArg (·.recordAllocation order) stats⟩,
      sound.gain member counted owns apart (after.withStats _)⟩
    simp only [allocateFrom, Traced.outcome_bind, answer, ok_bind, Traced.outcome_report,
      Traced.outcome_pure]
  · refine .inr ⟨reason, ?_⟩
    simp only [allocateFrom, Traced.outcome_bind, answer, ok_bind, Traced.outcome_pure,
      sound.setZone_self member]

/-- What a request to several zones comes to is what it comes to in one of them. -/
theorem allocateAmong_from {zones : List Zone} (sound : a.Sound live)
    (members : ∀ z ∈ zones, z ∈ a.zones.zones) (order align : Nat) :
    (∃ z ∈ zones, ∃ addr after,
      (a.allocateFrom z order align).outcome = .ok (.ok addr, after) ∧
      (allocateAmong order align zones a).outcome = .ok (.ok addr, after)) ∨
    ∃ reason, (allocateAmong order align zones a).outcome = .ok (.error reason, a) := by
  induction zones with
  | nil => exact .inr ⟨.outOfMemory, rfl⟩
  | cons z rest ih =>
      rcases allocateFrom_sound sound (members z (by simp)) order align with
        ⟨x, zone, answer, _⟩ | ⟨reason, answer⟩
      · refine .inl ⟨z, by simp, x.addr, _, answer, ?_⟩
        simp only [allocateAmong, Traced.outcome_bind, answer, ok_bind, Traced.outcome_pure]
      · by_cases full : reason = .outOfMemory
        · subst full
          have unfolded : (allocateAmong order align (z :: rest) a).outcome =
              (allocateAmong order align rest a).outcome := by
            simp only [allocateAmong, Traced.outcome_bind, answer, ok_bind]
          rw [unfolded]
          rcases ih fun other member => members other (by simp [member]) with
            ⟨owner, member, granted⟩ | refused
          · exact .inl ⟨owner, by simp [member], granted⟩
          · exact .inr refused
        · refine .inr ⟨reason, ?_⟩
          simp only [allocateAmong, Traced.outcome_bind, answer, ok_bind]
          cases reason with
          | outOfMemory => exact absurd rfl full
          | _ => rfl

theorem mem_candidates_iff {zones : List Zone} {preferred : Option Zone} {flags : ZoneFlags}
    (serving : ZoneTable.Serving zones live)
    (chosen : ∀ z, preferred = some z → z ∈ zones ∧ z.flags.intersects flags = true) :
    z ∈ candidates zones preferred flags ↔ z ∈ zones ∧ z.flags.intersects flags = true := by
  simp only [candidates, List.mem_append, Option.mem_toList, List.mem_filter, Bool.and_eq_true,
    decide_eq_true_eq]
  constructor
  · intro early
    rcases early with first | ⟨listed, matching, _⟩
    · exact chosen z first
    · exact ⟨listed, matching⟩
  · intro tried
    obtain ⟨listed, matching⟩ := tried
    by_cases first : some z.index = preferred.map Zone.index
    · obtain ⟨leader, preferred, same⟩ := Option.map_eq_some_iff.mp first.symm
      have place := serving.index_get (chosen leader preferred).1
      rw [same, serving.index_get listed] at place
      exact .inl (preferred.trans place.symm)
    · exact .inr ⟨listed, matching, first⟩

/-- A request for pages is a request to every zone with a matching capability, in some order. -/
theorem allocateAligned_among {flags : ZoneFlags} {pages : Nat} (sound : a.Sound live)
    (positive : pages ≠ 0) (some : ¬ flags.isEmpty = true) (small : Nat.clog 2 pages < Order.count)
    (align : Nat) :
    ∃ table zones, table.zones = a.zones.zones ∧
      (∀ z, z ∈ zones ↔ z ∈ a.zones.zones ∧ z.flags.intersects flags = true) ∧
      (a.allocateAligned flags pages align).outcome =
        (allocateAmong (Nat.clog 2 pages) align zones { a with zones := table }).outcome := by
  have fits : pageSize * 2 ^ Nat.clog 2 pages < 2 ^ 64 := by
    have := Nat.pow_le_pow_right (n := 2) (by decide) (Nat.le_of_lt small)
    calc pageSize * 2 ^ Nat.clog 2 pages ≤ pageSize * 2 ^ Order.count := Nat.mul_le_mul_left _ this
      _ < 2 ^ 64 := by decide
  obtain ⟨same, chosen⟩ := ZoneTable.choose_mem a.zones (pageSize * 2 ^ Nat.clog 2 pages) flags
  simp only [allocateAligned, Traced.outcome_ite, Traced.outcome_bind, Traced.outcome_lift,
    Order.ofPages_eq, ok_bind, if_neg positive, if_neg some, if_neg (Nat.not_le.mpr small),
    Word.shiftLeft_eq (small.trans (by decide)) fits]
  generalize a.zones.choose (pageSize * 2 ^ Nat.clog 2 pages) flags = choice at *
  rw [← same] at chosen
  refine ⟨choice.2, candidates choice.2.zones choice.1 flags, same, fun z => ?_, ?_⟩
  · rw [mem_candidates_iff (same ▸ sound.serving) chosen, same]
  · cases (allocateAmong (Nat.clog 2 pages) align (candidates choice.2.zones choice.1 flags)
        { a with zones := choice.2 }).outcome with
    | error fault => rfl
    | ok answer =>
        obtain ⟨result, after⟩ := answer
        cases result with
        | ok addr => rfl
        | error reason => cases reason <;> rfl

/-- A request is granted by one zone with a matching capability, or leaves every zone as it was. -/
theorem allocateAligned_from (sound : a.Sound live) (flags : ZoneFlags) (pages align : Nat) :
    (∃ (table : ZoneTable) (z : Zone) (addr : Nat) (after : PageAllocator),
      table.zones = a.zones.zones ∧ z ∈ a.zones.zones ∧
      z.flags.intersects flags = true ∧
      (PageAllocator.allocateFrom { a with zones := table } z (Nat.clog 2 pages) align).outcome =
        .ok (.ok addr, after) ∧
      (a.allocateAligned flags pages align).outcome = .ok (.ok addr, after)) ∨
    ∃ reason after, (a.allocateAligned flags pages align).outcome = .ok (.error reason, after) ∧
      after.zones.zones = a.zones.zones ∧ Kin a after := by
  by_cases none : pages = 0
  · exact .inr ⟨.zeroPages, a, by rw [allocateAligned, if_pos none]; rfl, rfl, .refl a⟩
  by_cases empty : flags.isEmpty = true
  · exact .inr ⟨.emptyCapability, a, by rw [allocateAligned, if_neg none, if_pos empty]; rfl, rfl, .refl a⟩
  by_cases large : Order.count ≤ Nat.clog 2 pages
  · refine .inr ⟨.orderTooLarge (Nat.clog 2 pages), a, ?_, rfl, .refl a⟩
    simp only [allocateAligned, if_neg none, if_neg empty, Traced.outcome_bind, Traced.outcome_lift,
      Order.ofPages_eq, ok_bind, if_pos large, Traced.outcome_pure]
  obtain ⟨table, zones, same, members, asked⟩ :=
    allocateAligned_among sound none empty (Nat.lt_of_not_le large) align
  have inTable : ∀ z ∈ zones, z ∈ table.zones := fun z member => same ▸ ((members z).mp member).1
  rw [asked]
  rcases allocateAmong_from (sound.withZones same) inTable (Nat.clog 2 pages) align with
    ⟨z, member, addr, after, granted, answer⟩ | ⟨reason, answer⟩
  · obtain ⟨listed, matching⟩ := (members z).mp member
    exact .inl ⟨table, z, addr, after, same, listed, matching, granted, answer⟩
  · exact .inr ⟨reason, { a with zones := table }, answer, same, rfl, rfl, congrArg _ same⟩

/-- Whatever is asked for, either a block is handed out of a zone with a matching capability, or
every zone stays as it was. -/
theorem allocateAligned_sound (sound : a.Sound live) (flags : ZoneFlags) (pages align : Nat) :
    (∃ (x : Block) (after : PageAllocator),
      (a.allocateAligned flags pages align).outcome = .ok (.ok x.addr, after) ∧
      x.order = Nat.clog 2 pages ∧ 2 ^ Nat.clog 2 align ∣ x.addr ∧
      a.Provides flags x ∧ Kin a after ∧ after.Sound (x :: live)) ∨
    ∃ reason after, (a.allocateAligned flags pages align).outcome = .ok (.error reason, after) ∧
      after.zones.zones = a.zones.zones ∧ Kin a after := by
  rcases allocateAligned_from sound flags pages align with
    ⟨table, z, addr, after, same, member, matching, granted, answer⟩ | refused
  · have next := sound.withZones same
    have kin : Kin a { a with zones := table } := ⟨rfl, rfl, congrArg _ same⟩
    rcases allocateFrom_sound next (same ▸ member) (Nat.clog 2 pages) align with
      ⟨x, zone, again, sameOrder, aligned, owns, ⟨fixed, _⟩, gained⟩ | ⟨reason, again⟩
    · obtain ⟨rfl, rfl⟩ : addr = x.addr ∧ after = _ := by simpa using granted.symm.trans again
      exact .inl ⟨x, _, answer, sameOrder, aligned, ⟨z, member, matching, owns⟩,
        kin.trans (next.setZone_kin (same ▸ member) fixed), gained⟩
    · cases granted.symm.trans again
  · exact .inr refused

/-- A live block is given back to the zone that it lies in, and only that zone's counters show it. -/
theorem free_live (sound : a.Sound live) (member : x ∈ live) :
    ∃ (table : ZoneTable) (z zone : Zone), table.zones = a.zones.zones ∧ z ∈ a.zones.zones ∧ z.Owns x ∧
      (a.free x.addr).outcome = .ok (.ok (), { a with zones := table.setZone zone }) ∧
      (zone.fixed = z.fixed ∧ zone.stats = z.stats.recordFree x.pages) ∧
      Sound { a with zones := table.setZone zone } (live.filter fun y => y.addr ≠ x.addr) := by
  obtain ⟨found, table, answer, same, covering⟩ := sound.serving.find_eq x.addr
  obtain ⟨z, listed, owns⟩ := sound.serving.owned x member
  obtain rfl := (covering z).mpr ⟨listed, owns⟩
  obtain ⟨zone, freed, ⟨fixed, stats⟩, after⟩ :=
    Zone.free_sound (sound.serving.sound z listed) member owns
  have counted : Zone.fixed { zone with stats := zone.stats.recordFree x.pages } = z.fixed := fixed
  refine ⟨table, z, { zone with stats := zone.stats.recordFree x.pages }, same, listed, owns, ?_,
    ⟨counted, congrArg (·.recordFree x.pages) stats⟩,
    (sound.withZones same).lose (same ▸ listed) counted owns (after.withStats _)⟩
  simp only [free, Traced.outcome_bind, Traced.outcome_lift, answer, ok_bind, freed,
    Traced.outcome_report, Traced.outcome_pure]

theorem free_dead (sound : a.Sound live) (dead : ∀ x ∈ live, x.addr ≠ addr) :
    ∃ reason after, (a.free addr).outcome = .ok (.error reason, after) ∧
      after.zones.zones = a.zones.zones ∧ Kin a after := by
  obtain ⟨found, table, answer, same, covering⟩ := sound.serving.find_eq addr
  simp only [free, Traced.outcome_bind, Traced.outcome_lift, answer, ok_bind]
  cases found with
  | none => exact ⟨.unknownAddress, { a with zones := table }, rfl, same, rfl, rfl, congrArg _ same⟩
  | some z =>
      obtain ⟨listed, _⟩ := (covering z).mp rfl
      have refused := Zone.free_refused (sound.serving.sound z listed) fun x member _ => dead x member
      refine ⟨z.buddy.refusal addr, { a with zones := table }, ?_, same, rfl, rfl, congrArg _ same⟩
      simp only [Traced.outcome_bind, refused, ok_bind, Traced.outcome_report, Traced.outcome_pure]
      rw [(sound.withZones same).setZone_self (same ▸ listed)]

/-- Freeing the address of a live block ends the block; freeing anything else is refused and leaves
every zone as it was. -/
theorem free_sound (sound : a.Sound live) (addr : Nat) :
    (∃ after, (a.free addr).outcome = .ok (.ok (), after) ∧ (∃ x ∈ live, x.addr = addr) ∧ Kin a after ∧
      after.Sound (live.filter fun x => x.addr ≠ addr)) ∨
    ∃ reason after, (a.free addr).outcome = .ok (.error reason, after) ∧
      (∀ x ∈ live, x.addr ≠ addr) ∧ after.zones.zones = a.zones.zones ∧ Kin a after := by
  by_cases used : ∃ x ∈ live, x.addr = addr
  · obtain ⟨x, member, rfl⟩ := used
    obtain ⟨table, z, zone, same, listed, _, freed, ⟨fixed, _⟩, lost⟩ := free_live sound member
    have kin : Kin a { a with zones := table } := ⟨rfl, rfl, congrArg _ same⟩
    exact .inl ⟨_, freed, ⟨x, member, rfl⟩,
      kin.trans ((sound.withZones same).setZone_kin (same ▸ listed) fixed), lost⟩
  · push Not at used
    obtain ⟨reason, after, refused, same, kin⟩ := free_dead sound used
    exact .inr ⟨reason, after, refused, used, same, kin⟩

end ZonedMemory.PageAllocator
