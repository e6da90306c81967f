import ZonedMemory.Proofs.Buddy.Canonical
import ZonedMemory.Proofs.PageAllocator.Run

namespace ZonedMemory

/-!
When the page allocator finds memory. Free blocks are coalesced, so a zone has a free block that is
large enough and aligned enough exactly when it has a free run that is; and since a zone out of memory
only passes the request on, the order in which zones are tried, which the table's memory of earlier
requests decides, makes no difference to whether one is found.
-/

/-- A naturally aligned run of pages of a zone, all of them in free blocks. -/
structure Zone.Vacant (z : Zone) (x : Block) : Prop where
  natural : 2 ^ x.order ∣ x.start
  inside : z.range.base ≤ x.addr ∧ x.addr + x.bytes ≤ z.range.base + z.range.size
  free : ∀ frame, x.Holds frame →
    ∃ y : Block, z.buddy.blockState? y.addr = .ok (some (.free y.order)) ∧ y.Holds frame

namespace Buddy

variable {b : Buddy} {chains : Nat → List Nat} {live : List Block} {x : Block} {order : Nat}

theorem Partition.spare_of_free (parts : b.Partition chains live ∅) (natural : x.Natural)
    (small : x.order ≤ Order.top)
    (free : ∀ frame, x.Holds frame → ∃ y ∈ listedBlocks b.firstFrame chains, y.Holds frame) :
    Spare b.firstFrame (b.firstFrame + b.pages.size) {y | y ∈ live} x := by
  have spare := fun frame holds => parts.free_frame_iff.mp (free frame holds)
  have first := spare _ x.holds_start
  have last := spare _ x.holds_last
  have := x.start_lt_stop
  exact ⟨natural, small, ⟨first.1, by omega⟩, fun y used =>
    Block.apart_iff.mpr fun frame holds => (spare frame holds).2.2 y used⟩

/-- A run of some order is free when a whole block of that order or a larger one is. -/
theorem Layout.free_run_iff (layout : b.Layout chains live ∅) (small : order ≤ Order.top) :
    (∃ x : Block, x.order = order ∧ x.Natural ∧ ∀ frame, x.Holds frame →
        ∃ y ∈ listedBlocks b.firstFrame chains, y.Holds frame) ↔
      ∃ large, order ≤ large ∧ chains large ≠ [] := by
  rw [← layout.spare_iff small]
  constructor
  · intro vacant
    obtain ⟨x, rfl, natural, free⟩ := vacant
    exact ⟨x, rfl, layout.partition.spare_of_free natural small free⟩
  · intro unused
    obtain ⟨x, rfl, spare⟩ := unused
    refine ⟨x, rfl, spare.natural, fun frame holds => layout.partition.free_frame_iff.mpr ?_⟩
    exact ⟨spare.inside.1.trans holds.1, holds.2.trans_le spare.inside.2, fun y used =>
      Block.apart_iff.mp (spare.unused y used) frame holds⟩

end Buddy

namespace Zone

variable {z : Zone} {live : List Block} {chains : Nat → List Nat} {order align alignOrder : Nat}

theorem Sound.vacant_iff (sound : z.Sound live)
    (layout : z.buddy.Layout chains (live.filter fun x => z.Owns x) ∅) (small : order ≤ Order.top) :
    (∃ x : Block, x.order = order ∧ z.Vacant x) ↔ ∃ large, order ≤ large ∧ chains large ≠ [] := by
  have free : ∀ y : Block, z.buddy.blockState? y.addr = .ok (some (.free y.order)) ↔
      y ∈ Buddy.listedBlocks z.buddy.firstFrame chains := by
    intro y
    rw [Buddy.blockState?_eq layout.placed, y.addr_div, Except.ok.injEq, layout.state_free_iff]
  rw [← layout.free_run_iff small]
  constructor
  · intro some
    obtain ⟨x, sameOrder, vacant⟩ := some
    refine ⟨x, sameOrder, vacant.natural, fun frame holds => ?_⟩
    obtain ⟨y, state, held⟩ := vacant.free frame holds
    exact ⟨y, (free y).mp state, held⟩
  · intro fitting
    obtain ⟨x, rfl, natural, held⟩ := fitting
    have inside := (layout.partition.spare_of_free natural small held).inside
    refine ⟨x, rfl, natural, ?_, fun frame holds => ?_⟩
    · rw [x.addr_add_bytes, sound.range, layout.placed.base, layout.placed.size, ← Nat.add_mul]
      exact ⟨Nat.mul_le_mul_right _ inside.1, Nat.mul_le_mul_right _ inside.2⟩
    · obtain ⟨y, listed, again⟩ := held frame holds
      exact ⟨y, (free y).mpr listed, again⟩

theorem allocate_error {reason : AllocError}
    (refused : (z.buddy.allocate order align).outcome = .ok (.error reason, z.buddy)) :
    (z.allocate order align).outcome = .ok (.error reason, z) := by
  simp only [allocate, Traced.outcome_bind, refused, ok_bind, Traced.outcome_pure]

/-- A zone grants a request when it has a free run of the order that the request comes to, and else is
out of memory. -/
theorem Sound.allocate_cases (sound : z.Sound live)
    (aligned : Order.ofAlignment align = .ok (some alignOrder))
    (small : max order alignOrder < Order.count) :
    ((∃ x : Block, x.order = max order alignOrder ∧ z.Vacant x) ∧
        ∃ addr after, (z.allocate order align).outcome = .ok (.ok addr, after)) ∨
      ((¬ ∃ x : Block, x.order = max order alignOrder ∧ z.Vacant x) ∧
        (z.allocate order align).outcome = .ok (.error .outOfMemory, z)) := by
  obtain ⟨⟨chains, layout⟩, _⟩ := id sound.settled
  rw [sound.vacant_iff layout (Nat.le_of_lt_succ small)]
  by_cases some : ∃ large, max order alignOrder ≤ large ∧ chains large ≠ []
  · obtain ⟨large, least, notEmpty⟩ := id some
    obtain ⟨x, buddy, answers, _⟩ := Buddy.Layout.reading.allocate_some
      (Buddy.settled_iff.mp sound.settled) layout aligned small least notEmpty
    refine .inl ⟨some, x.addr, { z with buddy := buddy, freePages := buddy.freePages }, ?_⟩
    simp only [allocate, Traced.outcome_bind, answers.outcome, ok_bind, Traced.outcome_pure]
  · refine .inr ⟨some, allocate_error (Buddy.allocate_exhausted layout.listed aligned small ?_).outcome⟩
    push Not at some
    exact some

end Zone

namespace PageAllocator

/-- What a page allocator can come to, by calls to it or to one of its zones, when what its table
remembers of earlier look-ups may be anything. -/
inductive Reachable : PageAllocator → Prop
  | create {m next : MemoryMap} {translator : Translator} {config : ZoneConfig} {a : PageAllocator} :
      m.Built → (create m translator config).outcome = .ok (.ok a, next) → Reachable a
  | allocate {a after : PageAllocator} {answer : Except AllocError Nat} (flags : ZoneFlags)
      (pages align : Nat) : Reachable a →
      (a.allocateAligned flags pages align).outcome = .ok (answer, after) → Reachable after
  | free {a after : PageAllocator} {answer : Except FreeError Unit} (addr : Nat) : Reachable a →
      (a.free addr).outcome = .ok (answer, after) → Reachable after
  | allocateZone {a : PageAllocator} {z zone : Zone} {answer : Except AllocError Nat}
      (order align : Nat) : Reachable a → z ∈ a.zones.zones →
      (z.allocate order align).outcome = .ok (answer, zone) →
      Reachable { a with zones := a.zones.setZone zone }
  | freeZone {a : PageAllocator} {z zone : Zone} {answer : Except FreeError Nat} (addr : Nat) :
      Reachable a → z ∈ a.zones.zones → (z.free addr).outcome = .ok (answer, zone) →
      Reachable { a with zones := a.zones.setZone zone }
  | remember {a : PageAllocator} (chosen : Vector (Option Nat) 8) (found : Option Nat) : Reachable a →
      Reachable { a with zones := { a.zones with chosen := chosen, found := found } }

variable {a after : PageAllocator} {live : List Block} {z zone : Zone} {zones : List Zone}
  {flags : ZoneFlags} {pages order align alignOrder addr : Nat}

namespace Sound

theorem allocateZone {answer : Except AllocError Nat} (sound : a.Sound live)
    (member : z ∈ a.zones.zones) (answers : (z.allocate order align).outcome = .ok (answer, zone)) :
    ∃ later, Sound { a with zones := a.zones.setZone zone } later := by
  rcases Zone.allocate_sound (sound.serving.sound z member) order align with
    ⟨x, after, again, _, _, ⟨same, _⟩, owns, apart, gained⟩ | ⟨reason, again⟩
  · obtain ⟨rfl, rfl⟩ := Prod.mk.inj (Except.ok.inj (answers.symm.trans again))
    exact ⟨x :: live, sound.gain member same owns apart gained⟩
  · obtain ⟨rfl, rfl⟩ := Prod.mk.inj (Except.ok.inj (answers.symm.trans again))
    exact ⟨live, sound.withZones (congrArg ZoneTable.zones (sound.setZone_self member))⟩

theorem freeZone {answer : Except FreeError Nat} (sound : a.Sound live)
    (member : z ∈ a.zones.zones) (answers : (z.free addr).outcome = .ok (answer, zone)) :
    ∃ later, Sound { a with zones := a.zones.setZone zone } later := by
  have own := sound.serving.sound z member
  by_cases used : ∃ x ∈ live, z.Owns x ∧ x.addr = addr
  · obtain ⟨x, listed, owns, rfl⟩ := used
    obtain ⟨after, again, ⟨same, _⟩, lost⟩ := Zone.free_sound own listed owns
    obtain ⟨rfl, rfl⟩ := Prod.mk.inj (Except.ok.inj (answers.symm.trans again))
    exact ⟨_, sound.lose member same owns lost⟩
  · push Not at used
    have again := Zone.free_refused own used
    obtain ⟨rfl, rfl⟩ := Prod.mk.inj (Except.ok.inj (answers.symm.trans again))
    exact ⟨live, sound.withZones (congrArg ZoneTable.zones (sound.setZone_self member))⟩

end Sound

theorem Reachable.sound (reachable : a.Reachable) : ∃ live, a.Sound live := by
  induction reachable with
  | create built created => exact ⟨[], (create_sound built created).1⟩
  | allocate flags pages align _ answers ih =>
      obtain ⟨live, sound⟩ := ih
      rcases allocateAligned_sound sound flags pages align with
        ⟨x, _, again, _, _, _, _, gained⟩ | ⟨_, _, again, same, kin⟩
      · obtain ⟨rfl, rfl⟩ := Prod.mk.inj (Except.ok.inj (answers.symm.trans again))
        exact ⟨x :: live, gained⟩
      · obtain ⟨rfl, rfl⟩ := Prod.mk.inj (Except.ok.inj (answers.symm.trans again))
        exact ⟨live, sound.kin kin (same ▸ sound.serving)⟩
  | free addr _ answers ih =>
      obtain ⟨live, sound⟩ := ih
      rcases free_sound sound addr with ⟨_, again, _, _, lost⟩ | ⟨_, _, again, _, same, kin⟩
      · obtain ⟨rfl, rfl⟩ := Prod.mk.inj (Except.ok.inj (answers.symm.trans again))
        exact ⟨_, lost⟩
      · obtain ⟨rfl, rfl⟩ := Prod.mk.inj (Except.ok.inj (answers.symm.trans again))
        exact ⟨live, sound.kin kin (same ▸ sound.serving)⟩
  | allocateZone order align _ member answers ih =>
      obtain ⟨live, sound⟩ := ih
      exact sound.allocateZone member answers
  | freeZone addr _ member answers ih =>
      obtain ⟨live, sound⟩ := ih
      exact sound.freeZone member answers
  | remember chosen found _ ih =>
      obtain ⟨live, sound⟩ := ih
      exact ⟨live, sound.withZones rfl⟩

theorem allocateFrom_error {reason : AllocError} (sound : a.Sound live) (member : z ∈ a.zones.zones)
    (refused : (z.allocate order align).outcome = .ok (.error reason, z)) :
    (a.allocateFrom z order align).outcome = .ok (.error reason, a) := by
  simp only [allocateFrom, Traced.outcome_bind, refused, ok_bind, Traced.outcome_pure,
    sound.setZone_self member]

theorem allocateFrom_ok (answers : (z.allocate order align).outcome = .ok (.ok addr, zone)) :
    ∃ after, (a.allocateFrom z order align).outcome = .ok (.ok addr, after) := by
  let counted := { zone with stats := zone.stats.recordAllocation order }
  refine ⟨{ a with zones := a.zones.setZone counted }, ?_⟩
  simp only [allocateFrom, Traced.outcome_bind, answers, ok_bind, Traced.outcome_report,
    Traced.outcome_pure, counted]

/-- Where zones refuse for any other reason than a lack of memory, the first one's refusal stands. -/
theorem allocateAmong_refused {reason : AllocError} (sound : a.Sound live)
    (members : ∀ z ∈ zones, z ∈ a.zones.zones) (some : zones ≠ []) (other : reason ≠ .outOfMemory)
    (refused : ∀ z ∈ zones, (z.allocate order align).outcome = .ok (.error reason, z)) :
    (allocateAmong order align zones a).outcome = .ok (.error reason, a) := by
  obtain ⟨z, rest, rfl⟩ := List.exists_cons_of_ne_nil some
  have first := allocateFrom_error sound (members z (by simp)) (refused z (by simp))
  simp only [allocateAmong, Traced.outcome_bind, first, ok_bind]
  cases reason with
  | outOfMemory => exact absurd rfl other
  | _ => rfl

/-- Zones tried one after the other find a free run if any of them has one. -/
theorem allocateAmong_cases (sound : a.Sound live) (members : ∀ z ∈ zones, z ∈ a.zones.zones)
    (aligned : Order.ofAlignment align = .ok (some alignOrder))
    (small : max order alignOrder < Order.count) :
    ((∃ z ∈ zones, ∃ x : Block, x.order = max order alignOrder ∧ z.Vacant x) ∧
        ∃ addr after, (allocateAmong order align zones a).outcome = .ok (.ok addr, after)) ∨
      ((¬ ∃ z ∈ zones, ∃ x : Block, x.order = max order alignOrder ∧ z.Vacant x) ∧
        (allocateAmong order align zones a).outcome = .ok (.error .outOfMemory, a)) := by
  induction zones with
  | nil => exact .inr ⟨by simp, rfl⟩
  | cons z rest ih =>
      have member := members z (by simp)
      rcases (sound.serving.sound z member).allocate_cases aligned small with
        ⟨vacant, addr, zone, answers⟩ | ⟨full, answers⟩
      · obtain ⟨after, granted⟩ := allocateFrom_ok (a := a) answers
        refine .inl ⟨⟨z, by simp, vacant⟩, addr, after, ?_⟩
        simp only [allocateAmong, Traced.outcome_bind, granted, ok_bind, Traced.outcome_pure]
      · have passed := allocateFrom_error sound member answers
        have later : (allocateAmong order align (z :: rest) a).outcome =
            (allocateAmong order align rest a).outcome := by
          simp only [allocateAmong, Traced.outcome_bind, passed, ok_bind]
        rw [later]
        simp only [List.mem_cons, exists_eq_or_imp, full, false_or]
        exact ih fun other listed => members other (by simp [listed])

/-- A single page is granted as long as a zone with one of the capabilities has a free one. -/
theorem Sound.allocate_page_cases (sound : a.Sound live) (flags : ZoneFlags) :
    (∃ addr after, (a.allocate flags 1).outcome = .ok (.ok addr, after) ∧ flags.isEmpty = false ∧
      ∃ z ∈ a.zones.zones, z.flags.intersects flags = true ∧ ∃ x : Block, x.order = 0 ∧ z.Vacant x) ∨
    ∃ after, (a.allocate flags 1).outcome =
        .ok (.error (if flags.isEmpty then .emptyCapability else .outOfMemory), after) ∧
      (flags.isEmpty = false →
        ∀ z ∈ a.zones.zones, z.flags.intersects flags = true → ¬ ∃ x : Block, x.order = 0 ∧ z.Vacant x) := by
  by_cases empty : flags.isEmpty = true
  · refine .inr ⟨a, ?_, fun some => absurd empty (by simp [some])⟩
    rw [allocate, allocateAligned, if_neg (by decide), if_pos empty, if_pos empty]
    rfl
  · have order : Nat.clog 2 1 = 0 := Nat.clog_one_right 2
    have aligned : Order.ofAlignment pageSize = .ok (some 0) := rfl
    have positive : 1 ≠ 0 := by decide
    obtain ⟨table, zones, same, members, asked⟩ :=
      allocateAligned_among sound positive empty (by rw [order]; decide) pageSize
    rw [order] at asked
    rcases allocateAmong_cases (sound.withZones same) (fun z member => same ▸ ((members z).mp member).1) aligned
      (show max 0 0 < Order.count by decide) with ⟨⟨z, member, vacant⟩, addr, after, granted⟩ | ⟨full, denied⟩
    · obtain ⟨listed, matching⟩ := (members z).mp member
      exact .inl ⟨addr, after, asked.trans granted, Bool.eq_false_of_not_eq_true empty, z, listed, matching,
        vacant⟩
    · refine .inr ⟨{ a with zones := table }, ?_, fun _ z listed matching vacant => full ⟨z, (members z).mpr ⟨listed, matching⟩, vacant⟩⟩
      rw [if_neg empty]
      exact asked.trans denied

/-- Whether a page is refused, and why, does not depend on what look-ups remember. -/
theorem Sound.refused_page (sound : a.Sound live) (other : after.Sound left)
    (same : after.zones.zones = a.zones.zones) {next : PageAllocator}
    (refused : (after.allocate flags 1).outcome = .ok (.error reason, next)) :
    ∃ later, (a.allocate flags 1).outcome = .ok (.error reason, later) := by
  rcases other.allocate_page_cases flags with ⟨addr, _, granted, _⟩ | ⟨_, denied, none⟩
  · cases refused.symm.trans granted
  · cases refused.symm.trans denied
    rcases sound.allocate_page_cases flags with ⟨_, _, _, some, z, member, matching, vacant⟩ | ⟨later, answer, _⟩
    · exact absurd vacant (none some z (same ▸ member) matching)
    · exact ⟨later, answer⟩

/-- The page allocator finds memory whenever there is some, whichever zone it tries first; a call that
fails leaves every zone as it was. -/
theorem allocateAligned_available (reachable : a.Reachable) (asked : flags.isEmpty = false)
    (positive : 1 ≤ pages) (ordered : Order.ofPages pages = .ok order) (small : order ≤ 10)
    (align : Nat) :
    ∃ answer after, (a.allocateAligned flags pages align).outcome = .ok (answer, after) ∧
      ((∀ z ∈ a.zones.zones, z.flags.intersects flags = false) → answer = .error .outOfMemory) ∧
      ((∃ z ∈ a.zones.zones, z.flags.intersects flags = true) →
        (Order.ofAlignment align = .ok none ∧ answer = .error (.orderTooLarge 64)) ∨
        ∃ alignOrder, Order.ofAlignment align = .ok (some alignOrder) ∧
          (11 ≤ max order alignOrder → answer = .error (.orderTooLarge (max order alignOrder))) ∧
          (max order alignOrder < 11 →
            ((∃ addr, answer = .ok addr) ↔
              ∃ z ∈ a.zones.zones, z.flags.intersects flags = true ∧
                ∃ x : Block, x.order = max order alignOrder ∧ z.Vacant x) ∧
            ((¬ ∃ addr, answer = .ok addr) → answer = .error .outOfMemory))) ∧
      ((¬ ∃ addr, answer = .ok addr) → after.zones.zones = a.zones.zones) := by
  obtain ⟨live, sound⟩ := reachable.sound
  obtain rfl := Except.ok.inj ((Order.ofPages_eq pages).symm.trans ordered)
  have own : Nat.clog 2 pages < Order.count := Nat.lt_succ_of_le small
  have named : ¬ flags.isEmpty = true := by simp [asked]
  obtain ⟨table, zones, same, members, among⟩ :=
    allocateAligned_among sound (Nat.ne_of_gt positive) named own align
  have next := sound.withZones same
  have inTable : ∀ z ∈ zones, z ∈ table.zones := fun z member => same ▸ ((members z).mp member).1
  have every : (∀ z ∈ a.zones.zones, z.flags.intersects flags = false) ↔ zones = [] := by
    simp only [List.eq_nil_iff_forall_not_mem, members, not_and, Bool.not_eq_true]
  have some : (∃ z ∈ a.zones.zones, z.flags.intersects flags = true) ↔ zones ≠ [] := by
    rw [Ne, ← every]
    push Not
    simp only [ne_eq, Bool.not_eq_false]
  rw [among, every, some]
  -- a refusal that every zone would give comes from the first one
  have refused : ∀ reason, reason ≠ .outOfMemory →
      (∀ z : Zone, (z.buddy.allocate (Nat.clog 2 pages) align).outcome = .ok (.error reason, z.buddy)) →
      zones ≠ [] → (allocateAmong (Nat.clog 2 pages) align zones { a with zones := table }).outcome =
        .ok (.error reason, { a with zones := table }) := by
    intro reason other turned notEmpty
    exact allocateAmong_refused next inTable notEmpty other fun z _ => Zone.allocate_error (turned z)
  by_cases none : zones = []
  · subst none
    exact ⟨.error .outOfMemory, { a with zones := table }, rfl, fun _ => rfl, fun h => absurd rfl h,
      fun _ => same⟩
  have aligned := Order.ofAlignment_eq align
  split at aligned
  · generalize Nat.clog 2 align - pageShift = alignOrder at aligned
    by_cases large : 11 ≤ max (Nat.clog 2 pages) alignOrder
    · have turned := refused _ (by simp) (fun z =>
        (Buddy.allocate_overaligned z.buddy own aligned large).outcome) none
      refine ⟨_, _, turned, fun h => absurd h none, fun _ => .inr ⟨alignOrder, aligned, fun _ => rfl, ?_⟩,
        fun _ => same⟩
      exact fun less => absurd large (Nat.not_le.mpr less)
    · have fits : max (Nat.clog 2 pages) alignOrder < Order.count := Nat.lt_of_not_le large
      have found : (∃ z ∈ a.zones.zones, z.flags.intersects flags = true ∧
          ∃ x : Block, x.order = max (Nat.clog 2 pages) alignOrder ∧ z.Vacant x) ↔
          ∃ z ∈ zones, ∃ x : Block, x.order = max (Nat.clog 2 pages) alignOrder ∧ z.Vacant x := by
        simp only [members, and_assoc]
      rcases allocateAmong_cases next inTable aligned fits with
        ⟨vacant, addr, after, granted⟩ | ⟨full, denied⟩
      · refine ⟨_, after, granted, fun h => absurd h none, fun _ => .inr ⟨alignOrder, aligned,
          fun h => absurd h large, fun _ => ⟨iff_of_true ⟨addr, rfl⟩ (found.mpr vacant), ?_⟩⟩, ?_⟩
        · exact fun failed => absurd ⟨addr, rfl⟩ failed
        · exact fun failed => absurd ⟨addr, rfl⟩ failed
      · exact ⟨_, _, denied, fun _ => rfl, fun _ => .inr ⟨alignOrder, aligned, fun h => absurd h large,
          fun _ => ⟨iff_of_false (by simp) (mt found.mp full), fun _ => rfl⟩⟩, fun _ => same⟩
  · have turned := refused _ (by simp) (fun z =>
      (Buddy.allocate_unalignable z.buddy own aligned).outcome) none
    exact ⟨_, _, turned, fun h => absurd h none, fun _ => .inl ⟨aligned, rfl⟩, fun _ => same⟩

theorem allocateAligned_available_eight :
    ∃ a : PageAllocator, a.Reachable ∧ (ZoneFlags.dma.isEmpty = false ∧ 1 ≤ 3 ∧
      Order.ofPages 3 = .ok 2 ∧ 2 ≤ 10) ∧
      ∃ addr after, (a.allocateAligned .dma 3 4096).outcome = .ok (.ok addr, after) ∧
        ∃ z ∈ a.zones.zones, z.flags.intersects .dma = true ∧ ∃ x : Block, x.order = 2 ∧ z.Vacant x := by
  have computed : ((create eightPages (.directMap 0) {}).outcome.toOption.bind fun made =>
      made.1.toOption.bind fun a => (a.allocateAligned .dma 3 4096).outcome.toOption.map
        fun answer => answer.1.toOption.isSome) = some true := by
    decide +kernel
  obtain ⟨⟨created, next⟩, made, computed⟩ := Option.bind_eq_some_iff.mp computed
  obtain ⟨a, valid, computed⟩ := Option.bind_eq_some_iff.mp computed
  obtain ⟨⟨result, after⟩, answers, some⟩ := Option.map_eq_some_iff.mp computed
  obtain ⟨addr, granted⟩ := Option.isSome_iff_exists.mp some
  obtain rfl : created = .ok a := toOption_eq_some.mp valid
  obtain rfl : result = .ok addr := toOption_eq_some.mp granted
  have reachable : a.Reachable := .create eightPages_built (toOption_eq_some.mp made)
  have asked : ZoneFlags.dma.isEmpty = false ∧ 1 ≤ 3 ∧ Order.ofPages 3 = .ok 2 ∧ 2 ≤ 10 :=
    ⟨rfl, by decide, rfl, by decide⟩
  obtain ⟨answer, later, again, empty, serves, _⟩ := allocateAligned_available reachable asked.1 asked.2.1
    asked.2.2.1 asked.2.2.2 4096
  obtain ⟨rfl, rfl⟩ := Prod.mk.inj (Except.ok.inj (again.symm.trans (toOption_eq_some.mp answers)))
  have matching : ∃ z ∈ a.zones.zones, z.flags.intersects .dma = true := by
    by_contra none
    push Not at none
    cases empty fun z member => Bool.eq_false_of_not_eq_true (none z member)
  rcases serves matching with ⟨_, refused⟩ | ⟨alignOrder, aligned, _, found⟩
  · cases refused
  · obtain rfl : alignOrder = 0 := by
      have first : Order.ofAlignment 4096 = .ok (Option.some 0) := rfl
      simpa using aligned.symm.trans first
    exact ⟨a, reachable, asked, addr, later, toOption_eq_some.mp answers,
      (found (by decide)).1.mp ⟨addr, rfl⟩⟩

end PageAllocator

end ZonedMemory
