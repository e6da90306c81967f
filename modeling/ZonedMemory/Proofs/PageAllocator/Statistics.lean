import ZonedMemory.Proofs.PageAllocator.Run

namespace ZonedMemory

/-!
What the counters of a zone say. An account of a page allocator lists the blocks that were ever handed
out, and of these the ones that are still live; the counters of every zone can be read off it.
-/

/-- A page allocator, and what has been handed out by it. -/
structure Account where
  allocator : PageAllocator
  /-- The blocks handed out and not given back, the latest first. -/
  live : List Block
  /-- All blocks ever handed out, the latest first. -/
  given : List Block

namespace Account

def withAllocator (s : Account) (allocator : PageAllocator) : Account := { s with allocator := allocator }

def hand (s : Account) (allocator : PageAllocator) (x : Block) : Account :=
  ⟨allocator, x :: s.live, x :: s.given⟩

def giveBack (s : Account) (allocator : PageAllocator) (addr : Nat) : Account :=
  ⟨allocator, s.live.filter fun x => x.addr ≠ addr, s.given⟩

/-- The account after one call to the page allocator: a request or a free, whether it comes to
anything or not, or a look-up. -/
inductive Step (s : Account) : Account → Prop
  | granted {flags : ZoneFlags} {pages align addr : Nat} {after : PageAllocator}
      (answer : (s.allocator.allocateAligned flags pages align).outcome = .ok (.ok addr, after)) :
      Step s (s.hand after ⟨Frame.ofAddress addr, Nat.clog 2 pages⟩)
  | denied {flags : ZoneFlags} {pages align : Nat} {reason : AllocError} {after : PageAllocator}
      (answer : (s.allocator.allocateAligned flags pages align).outcome = .ok (.error reason, after)) :
      Step s (s.withAllocator after)
  | freed {addr : Nat} {after : PageAllocator}
      (answer : (s.allocator.free addr).outcome = .ok (.ok (), after)) : Step s (s.giveBack after addr)
  | refused {addr : Nat} {reason : FreeError} {after : PageAllocator}
      (answer : (s.allocator.free addr).outcome = .ok (.error reason, after)) :
      Step s (s.withAllocator after)
  | found {addr : Nat} {zone : Option Zone} {table : ZoneTable}
      (answer : s.allocator.zones.find addr = .ok (zone, table)) :
      Step s (s.withAllocator { s.allocator with zones := table })
  | chosen (bytes : Nat) (flags : ZoneFlags) :
      Step s (s.withAllocator { s.allocator with zones := (s.allocator.zones.choose bytes flags).2 })

abbrev Steps : Account → Account → Prop := Relation.ReflTransGen Step

end Account

namespace Zone

/-- The order of the latest block that was handed out from the zone, zero before the first. -/
def latestOrder (z : Zone) (given : List Block) : Nat :=
  ((given.filter fun x => z.Owns x).head?.map Block.order).getD 0

/-- The counters of a zone agree with its buddy and with what has been handed out from it. -/
structure Agrees (z : Zone) (s : Account) : Prop where
  distinct : (s.live.filter fun x => z.Owns x).Nodup
  /-- The live blocks of the zone are those that its buddy has as allocated. -/
  recorded : ∀ x : Block, x ∈ s.live ∧ z.Owns x ↔
    z.buddy.blockState? x.addr = .ok (some (.allocated x.order))
  blocks : z.stats.frees + (s.live.filter fun x => z.Owns x).length = z.stats.allocations
  mirror : z.freePages = z.buddy.freePages ∧ z.totalPages = z.buddy.totalPages
  pages : z.freePages ≤ z.totalPages ∧
    z.stats.pagesFreed + (z.totalPages - z.freePages) = z.stats.pagesAllocated
  lastOrder : z.stats.lastOrder = z.latestOrder s.given

/-- The counters as sums over the account. -/
structure Tallies (z : Zone) (live given : List Block) : Prop where
  blocks : z.stats.frees + (live.filter fun x => z.Owns x).length = z.stats.allocations
  pages : z.stats.pagesFreed + ((live.filter fun x => z.Owns x).map Block.pages).sum =
    z.stats.pagesAllocated
  lastOrder : z.stats.lastOrder = z.latestOrder given

variable {z zone : Zone} {live given : List Block} {x : Block}

theorem filter_owns (same : zone.fixed = z.fixed) (blocks : List Block) :
    (blocks.filter fun x => zone.Owns x) = blocks.filter fun x => z.Owns x :=
  List.filter_congr fun _ _ => decide_eq_decide.mpr (owns_iff same)

theorem latestOrder_eq (same : zone.fixed = z.fixed) (given : List Block) :
    zone.latestOrder given = z.latestOrder given := by
  rw [latestOrder, filter_owns same, latestOrder]

namespace Tallies

theorem congr (tallies : z.Tallies live given) (same : zone.fixed = z.fixed) (stats : zone.stats = z.stats) :
    zone.Tallies live given := by
  constructor
  · rw [stats, filter_owns same, tallies.blocks]
  · rw [stats, filter_owns same, tallies.pages]
  · rw [stats, latestOrder_eq same, tallies.lastOrder]

theorem hand (tallies : z.Tallies live given) (owns : z.Owns x) (same : zone.fixed = z.fixed)
    (stats : zone.stats = z.stats.recordAllocation x.order) : zone.Tallies (x :: live) (x :: given) := by
  have gained : ∀ blocks : List Block, ((x :: blocks).filter fun y => zone.Owns y) =
      x :: blocks.filter fun y => z.Owns y := fun blocks => by
    rw [filter_owns same, List.filter_cons_of_pos (by simpa using owns)]
  have blocks := tallies.blocks
  have pages := tallies.pages
  constructor
  · rw [stats, gained, List.length_cons]
    simp only [ZoneStats.recordAllocation]
    omega
  · rw [stats, gained, List.map_cons, List.sum_cons]
    simp only [ZoneStats.recordAllocation, Nat.one_shiftLeft, Block.pages] at pages ⊢
    omega
  · rw [stats, latestOrder, gained]
    rfl

theorem hand_other (tallies : z.Tallies live given) (foreign : ¬ z.Owns x) :
    z.Tallies (x :: live) (x :: given) := by
  have unseen : ∀ blocks : List Block, ((x :: blocks).filter fun y => z.Owns y) =
      blocks.filter fun y => z.Owns y := fun blocks =>
    List.filter_cons_of_neg (by simpa using foreign)
  constructor
  · rw [unseen, tallies.blocks]
  · rw [unseen, tallies.pages]
  · rw [latestOrder, unseen, tallies.lastOrder, latestOrder]

theorem giveBack (tallies : z.Tallies live given) (sound : z.Sound live) (member : x ∈ live)
    (owns : z.Owns x) (same : zone.fixed = z.fixed) (stats : zone.stats = z.stats.recordFree x.pages) :
    zone.Tallies (live.filter fun y => y.addr ≠ x.addr) given := by
  have listed := sound.mem_filter.mpr ⟨member, owns⟩
  have lost : ((live.filter fun y => y.addr ≠ x.addr).filter fun y => zone.Owns y) =
      (live.filter fun y => z.Owns y).erase x := by
    obtain ⟨⟨chains, layout⟩, _⟩ := sound.settled
    rw [filter_owns same, List.filter_comm]
    exact layout.partition.filter_addr listed
  have perm := List.perm_cons_erase listed
  have length := perm.length_eq
  have sum := (perm.map Block.pages).sum_eq
  rw [List.length_cons] at length
  rw [List.map_cons, List.sum_cons] at sum
  have blocks := tallies.blocks
  have pages := tallies.pages
  constructor
  · rw [stats, lost]
    simp only [ZoneStats.recordFree]
    omega
  · rw [stats, lost]
    simp only [ZoneStats.recordFree]
    omega
  · rw [stats, latestOrder_eq same]
    exact tallies.lastOrder

theorem giveBack_other (tallies : z.Tallies live given) (foreign : ¬ z.Owns x) :
    z.Tallies (live.filter fun y => y.addr ≠ x.addr) given := by
  have unseen : ((live.filter fun y => y.addr ≠ x.addr).filter fun y => z.Owns y) =
      live.filter fun y => z.Owns y := by
    rw [List.filter_filter]
    apply List.filter_congr
    intro y _
    by_cases owned : z.Owns y
    · have elsewhere : y.addr ≠ x.addr := fun equal => foreign (show z.Covers x.addr from equal ▸ owned)
      simp [owned, elsewhere]
    · simp [owned]
  constructor
  · rw [unseen, tallies.blocks]
  · rw [unseen, tallies.pages]
  · exact tallies.lastOrder

end Tallies

end Zone

namespace Account

variable {s t : Account} {x : Block} {a after : PageAllocator} {table : ZoneTable} {z zone : Zone}

/-- The allocator serves what is live, and the counters of its zones are those of the account. -/
structure Kept (s : Account) : Prop where
  sound : s.allocator.Sound s.live
  tallies : ∀ z ∈ s.allocator.zones.zones, z.Tallies s.live s.given

namespace Kept

theorem unchanged (kept : s.Kept) (kin : PageAllocator.Kin s.allocator after)
    (same : after.zones.zones = s.allocator.zones.zones) : (s.withAllocator after).Kept :=
  ⟨kept.sound.kin kin (same ▸ kept.sound.serving), fun z member => kept.tallies z (same ▸ member)⟩

/-- The zones after one of them was put back are that one and the others. -/
theorem zone_cases {w : Zone} (kept : s.Kept) (same : table.zones = s.allocator.zones.zones)
    (listed : z ∈ s.allocator.zones.zones) (fixed : zone.fixed = z.fixed)
    (member : w ∈ (table.setZone zone).zones) :
    w = zone ∨ w ∈ s.allocator.zones.zones ∧ w.index ≠ z.index := by
  change w ∈ table.zones.set zone.index zone at member
  rw [same, Zone.index_eq fixed] at member
  exact (kept.sound.serving.mem_set_iff listed).mp member

theorem hand (kept : s.Kept) (same : table.zones = s.allocator.zones.zones)
    (listed : z ∈ s.allocator.zones.zones) (owns : z.Owns x)
    (fixed : zone.fixed = z.fixed) (stats : zone.stats = z.stats.recordAllocation x.order)
    (sound : PageAllocator.Sound { s.allocator with zones := table.setZone zone } (x :: s.live)) :
    (s.hand { s.allocator with zones := table.setZone zone } x).Kept := by
  constructor
  · exact sound
  · intro w member
    rcases kept.zone_cases same listed fixed member with rfl | ⟨inTable, different⟩
    · exact (kept.tallies z listed).hand owns fixed stats
    · exact (kept.tallies w inTable).hand_other (kept.sound.filter_other listed inTable different owns)

theorem giveBack (kept : s.Kept) (same : table.zones = s.allocator.zones.zones)
    (listed : z ∈ s.allocator.zones.zones) (member : x ∈ s.live) (owns : z.Owns x)
    (fixed : zone.fixed = z.fixed) (stats : zone.stats = z.stats.recordFree x.pages)
    (sound : PageAllocator.Sound { s.allocator with zones := table.setZone zone }
      (s.live.filter fun y => y.addr ≠ x.addr)) :
    (s.giveBack { s.allocator with zones := table.setZone zone } x.addr).Kept := by
  constructor
  · exact sound
  · intro w inAfter
    rcases kept.zone_cases same listed fixed inAfter with rfl | ⟨inTable, different⟩
    · exact (kept.tallies z listed).giveBack (kept.sound.serving.sound z listed) member owns fixed stats
    · exact (kept.tallies w inTable).giveBack_other (kept.sound.filter_other listed inTable different owns)

/-- The counters agree with whatever has been handed out. -/
theorem agrees (kept : s.Kept) (member : z ∈ s.allocator.zones.zones) : z.Agrees s := by
  have sound := kept.sound.serving.sound z member
  have tallies := kept.tallies z member
  have accounted := sound.settled.accounted
  obtain ⟨⟨chains, layout⟩, _⟩ := id sound.settled
  rw [← sound.mirror, ← sound.totalPages] at accounted
  constructor
  · exact layout.distinct
  · intro x
    rw [← sound.mem_filter, Buddy.blockState?_eq layout.placed, x.addr_div, Except.ok.injEq,
      layout.state_live_iff]
  · exact tallies.blocks
  · exact ⟨sound.mirror, sound.totalPages⟩
  · have pages := tallies.pages
    constructor <;> omega
  · exact tallies.lastOrder

end Kept

theorem Step.kept (step : s.Step t) (kept : s.Kept) : t.Kept := by
  cases step with
  | @granted flags pages align addr after answer =>
      rcases PageAllocator.allocateAligned_from kept.sound flags pages align with
        ⟨table, z, place, next, same, listed, _, granted, again⟩ | ⟨_, _, again, _⟩
      · obtain ⟨rfl, rfl⟩ : addr = place ∧ after = next := by simpa using answer.symm.trans again
        rcases PageAllocator.allocateFrom_sound (kept.sound.withZones same) (same ▸ listed)
            (Nat.clog 2 pages) align with
          ⟨x, zone, handed, order, _, owns, ⟨fixed, stats⟩, sound⟩ | ⟨_, denied⟩
        · obtain ⟨rfl, rfl⟩ : addr = x.addr ∧ after = _ := by simpa using granted.symm.trans handed
          rw [← order] at stats ⊢
          have block : (⟨Frame.ofAddress x.addr, x.order⟩ : Block) = x := by
            rw [Frame.ofAddress, x.addr_div]
          rw [block]
          exact kept.hand same listed owns fixed stats sound
        · cases granted.symm.trans denied
      · cases answer.symm.trans again
  | @denied flags pages align reason after answer =>
      rcases PageAllocator.allocateAligned_from kept.sound flags pages align with
        ⟨_, _, _, _, _, _, _, _, again⟩ | ⟨_, next, again, same, kin⟩
      · cases answer.symm.trans again
      · obtain ⟨_, rfl⟩ : reason = _ ∧ after = next := by simpa using answer.symm.trans again
        exact kept.unchanged kin same
  | @freed addr after answer =>
      by_cases used : ∃ x ∈ s.live, x.addr = addr
      · obtain ⟨x, member, rfl⟩ := used
        obtain ⟨table, z, zone, same, listed, owns, again, ⟨fixed, stats⟩, sound⟩ :=
          PageAllocator.free_live kept.sound member
        obtain rfl : after = _ := by simpa using answer.symm.trans again
        exact kept.giveBack same listed member owns fixed stats sound
      · push Not at used
        obtain ⟨_, _, again, _⟩ := PageAllocator.free_dead kept.sound used
        cases answer.symm.trans again
  | @refused addr reason after answer =>
      by_cases used : ∃ x ∈ s.live, x.addr = addr
      · obtain ⟨x, member, rfl⟩ := used
        obtain ⟨_, _, _, _, _, _, again, _⟩ := PageAllocator.free_live kept.sound member
        cases answer.symm.trans again
      · push Not at used
        obtain ⟨_, next, again, same, kin⟩ := PageAllocator.free_dead kept.sound used
        obtain ⟨_, rfl⟩ : reason = _ ∧ after = next := by simpa using answer.symm.trans again
        exact kept.unchanged kin same
  | @found addr zone table answer =>
      obtain ⟨_, _, again, same, _⟩ := kept.sound.serving.find_eq addr
      obtain ⟨_, rfl⟩ : zone = _ ∧ table = _ := by simpa using answer.symm.trans again
      exact kept.unchanged ⟨rfl, rfl, congrArg _ same⟩ same
  | chosen bytes flags =>
      have same := (ZoneTable.choose_mem s.allocator.zones bytes flags).1
      exact kept.unchanged ⟨rfl, rfl, congrArg _ same⟩ same

theorem create_kept {m next : MemoryMap} {translator : Translator} {config : ZoneConfig} (built : m.Built)
    (created : (PageAllocator.create m translator config).outcome = .ok (.ok a, next)) :
    Kept ⟨a, [], []⟩ := by
  obtain ⟨sound, _, uncounted⟩ := PageAllocator.create_sound built created
  constructor
  · exact sound
  · intro z member
    have none := uncounted z member
    constructor
    · rw [none]
      rfl
    · rw [none]
      rfl
    · rw [none]
      rfl

theorem Steps.kept (steps : s.Steps t) (kept : s.Kept) : t.Kept := by
  induction steps with
  | refl => exact kept
  | tail _ step ih => exact step.kept ih

end Account

end ZonedMemory
