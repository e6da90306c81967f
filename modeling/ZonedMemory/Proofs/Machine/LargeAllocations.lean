import ZonedMemory.Proofs.Buddy.Answers
import ZonedMemory.Proofs.Machine.Growth

namespace ZonedMemory

/-!
Whole pages by way of a slab allocator. Its table and the buddies change together: what the table lists
are the live requests for more than half a page, each a block that the buddy of its zone has as allocated,
and a block that is freed goes back as it came.
-/

namespace Zone

variable {z zone : Zone} {live : List Block} {x : Block}

/-- Without a block that was live, a zone has the pages of the block in its free blocks. -/
theorem Sound.vacant_of_lost (sound : z.Sound live) (member : x ∈ live) (owns : z.Owns x)
    (same : zone.fixed = z.fixed) (lost : zone.Sound (live.filter fun y => y.addr ≠ x.addr)) :
    zone.Vacant x ∧ zone.freePages = z.freePages + x.pages := by
  have listed := sound.mem_filter.mpr ⟨member, owns⟩
  obtain ⟨⟨chains, layout⟩, _⟩ := id sound.settled
  have range : zone.buddy.range = z.buddy.range := by
    rw [← lost.range, ← sound.range, Zone.range_eq same]
  have left : ((live.filter fun y => y.addr ≠ x.addr).filter fun y => zone.Owns y) =
      (live.filter fun y => z.Owns y).erase x := by
    rw [List.filter_comm, List.filter_congr fun y _ => decide_eq_decide.mpr (Zone.owns_iff same)]
    exact layout.partition.filter_addr listed
  have settled := left ▸ lost.settled
  obtain ⟨first, size⟩ := sound.settled.same_frames settled range
  obtain ⟨⟨others, laterLayout⟩, _⟩ := id settled
  refine ⟨⟨sound.natural member owns, Zone.range_eq same ▸ sound.inside member owns, fun frame holds => ?_⟩, ?_⟩
  · have inside := layout.tiled.holds_inside (.inr (.inr listed)) holds
    obtain ⟨y, free, held⟩ := laterLayout.partition.free_frame_iff.mpr
      ⟨first ▸ inside.1, first ▸ size ▸ inside.2, fun y used again => by
        obtain ⟨different, other⟩ := (layout.distinct.mem_erase_iff).mp used
        exact different (layout.tiled.unique (.inr (.inr other)) (.inr (.inr listed)) again holds)⟩
    refine ⟨y, ?_, held⟩
    rw [Buddy.blockState?_eq laterLayout.placed, y.addr_div, laterLayout.state_free_iff.mpr free]
  · rw [lost.mirror, sound.mirror]
    exact sound.settled.freePages_of_erase settled listed range

end Zone

namespace PageAllocator

/-- A block has gone back to its zone, where all its pages are free; the other zones stay as they were. -/
def Returned (zones after : List Zone) (x : Block) : Prop :=
  ∃ z ∈ zones, ∃ zone : Zone, z.Covers x.addr ∧ after = zones.set z.index zone ∧
    (zone.fixed = z.fixed ∧ zone.stats = z.stats.recordFree (2 ^ x.order)) ∧ zone.Vacant x ∧
    zone.freePages = z.freePages + 2 ^ x.order

variable {a after : PageAllocator} {live : List Block} {x : Block}

theorem Sound.free_returned (sound : a.Sound live) (member : x ∈ live) {answer : Except FreeError Unit}
    (freed : (a.free x.addr).outcome = .ok (answer, after)) :
    Returned a.zones.zones after.zones.zones x := by
  obtain ⟨table, z, zone, same, listed, owns, answers, ⟨fixed, stats⟩, lost⟩ := free_live sound member
  obtain ⟨_, rfl⟩ := Prod.mk.inj (Except.ok.inj (answers.symm.trans freed))
  have place : (table.setZone zone).zones = a.zones.zones.set z.index zone := by
    rw [ZoneTable.setZone, same, Zone.index_eq fixed]
  have inTable : zone ∈ (table.setZone zone).zones := by
    rw [place]
    exact (sound.serving.mem_set_iff listed).mpr (.inl rfl)
  have vacant := (sound.serving.sound z listed).vacant_of_lost member owns fixed
    (lost.serving.sound zone inTable)
  exact ⟨z, listed, zone, owns, place, ⟨fixed, stats⟩, vacant⟩

end PageAllocator

namespace Machine

namespace Session

/-- The live allocations of a slab allocator that are larger than half a page. -/
def largeOf (s : Session) (slab : Nat) : List SlabGrant :=
  (s.small ++ s.large).filter fun g => g.slab = slab ∧ 2048 < g.size

/-- The table lists the live allocations that are larger than half a page, and each is a block that the
buddy of its zone has as allocated. -/
structure Tabled (s : Session) (slab : Nat) (table : LargeTable) : Prop where
  distinct : (table.entries.map LargeAllocation.addr).Nodup
  listed : table.entries.Perm ((s.largeOf slab).map SlabGrant.entry)
  counted : table.live = table.entries.length
  bounded : table.live ≤ 256
  allocated : ∀ entry ∈ table.entries, ∃ order, Order.ofPages entry.pages = .ok order ∧
    4096 ∣ entry.addr ∧ ∃ z ∈ s.machine.zones, z.Covers entry.addr ∧
      z.buddy.blockState? entry.addr = .ok (some (.allocated order))

/-- How a request for more than half a page is answered. -/
structure Answered (s : Session) (slab size : Nat) (flags : ZoneFlags) (answer : Except SlabError Nat)
    (next : Session) : Prop where
  full : answer = .error .trackingFull ↔ (s.largeOf slab).length = 256
  /-- With room in the table, a request fails as the page allocator does, and only then. -/
  refused : (s.largeOf slab).length ≠ 256 → ∀ reason, answer = .error reason ↔
    ∃ refusal machine, reason = .page refusal ∧
      (s.machine.allocatePages flags (Word.divUp size 4096) none).outcome = .ok (.error refusal, machine)
  unchanged : ∀ reason, answer = .error reason →
    s.machine.Unchanged next.machine ∧ next = s.withMachine next.machine

/-- What holds of the large allocations of a slab allocator in one session. -/
structure LargeExact (s : Session) (slab : Nat) (allocator : SlabAllocator) : Prop where
  tabled : s.Tabled slab allocator.large
  request : ∀ size, 2048 < size → ∃ answer next,
    (s.machine.slabAllocate slab size).outcome = .ok (some answer, next.machine) ∧
    s.perform (.slabAllocate slab size) = .ok next ∧ s.Answered slab size allocator.flags answer next
  /-- What is live can be freed: one allocation ends, one entry leaves the table, one block goes back. -/
  release : ∀ g ∈ s.largeOf slab, ∃ table next,
    (s.machine.slabFree slab g.addr).outcome = .ok (some (.ok ()), next.machine) ∧
    s.perform (.slabFree slab g.addr) = .ok next ∧ s.Ends slab g.addr next ∧
    next.machine.slabs = s.machine.slabs.set slab { allocator with large := table } ∧
    allocator.large.entries.Perm (g.entry :: table.entries) ∧
    PageAllocator.Returned s.machine.zones next.machine.zones g.block
  /-- Nothing else that starts a page can be freed. -/
  refusal : ∀ addr, 4096 ∣ addr → (∀ g ∈ s.largeOf slab, g.addr ≠ addr) → ∃ next,
    (s.machine.slabFree slab addr).outcome = .ok (some (.error .notAllocated), next.machine) ∧
    s.perform (.slabFree slab addr) = .ok next ∧ s.machine.Unchanged next.machine ∧
    next = s.withMachine next.machine

/-- Requests are kept by their size. -/
structure Sized (s : Session) : Prop where
  small : ∀ g ∈ s.small, g.size ≤ SizeClass.largest
  large : ∀ g ∈ s.large, SizeClass.largest < g.size

variable {s next : Session} {pages : List SlabPage} {allocator : SlabAllocator} {slab size addr : Nat}
  {g : SlabGrant}

theorem perform_sized {call : Call} (sized : s.Sized) (performed : s.perform call = .ok next) :
    next.Sized := by
  cases call with
  | addSlab flags =>
      cases performed
      exact ⟨sized.small, sized.large⟩
  | slabAllocate slab size =>
      obtain ⟨⟨answer, machine⟩, _, performed⟩ := bind_eq_ok.mp performed
      rcases answer with _ | reason | start
      · cases performed
        exact ⟨sized.small, sized.large⟩
      · cases performed
        exact ⟨sized.small, sized.large⟩
      · dsimp only at performed
        split at performed
        · rename_i small
          cases performed
          exact ⟨List.forall_mem_cons.mpr ⟨small, sized.small⟩, sized.large⟩
        · rename_i large
          cases performed
          exact ⟨sized.small, List.forall_mem_cons.mpr ⟨Nat.lt_of_not_le large, sized.large⟩⟩
  | slabFree slab addr =>
      obtain ⟨⟨answer, machine⟩, _, performed⟩ := bind_eq_ok.mp performed
      rcases answer with _ | reason | _
      · cases performed
        exact ⟨sized.small, sized.large⟩
      · cases performed
        exact ⟨sized.small, sized.large⟩
      · cases performed
        exact ⟨fun g live => sized.small g (List.mem_filter.mp live).1,
          fun g live => sized.large g (List.mem_filter.mp live).1⟩
  | allocatePages flags count align =>
      obtain ⟨⟨answer, machine⟩, _, performed⟩ := bind_eq_ok.mp performed
      cases answer <;> cases performed <;> exact ⟨sized.small, sized.large⟩
  | freePages addr =>
      obtain ⟨⟨answer, machine⟩, _, performed⟩ := bind_eq_ok.mp performed
      cases answer <;> cases performed <;> exact ⟨sized.small, sized.large⟩
  | write addr bytes =>
      cases performed
      exact ⟨sized.small, sized.large⟩

theorem Reached.sized (reached : Reached s) : s.Sized := by
  induction reached with
  | start built created covered => exact ⟨by simp, by simp⟩
  | step reached allowed performed ih => exact perform_sized ih performed

theorem Sized.largeOf_eq (sized : s.Sized) (slab : Nat) :
    s.largeOf slab = s.large.filter fun g => g.slab = slab := by
  have none : (s.small.filter fun g => g.slab = slab ∧ 2048 < g.size) = [] := by
    refine List.filter_eq_nil_iff.mpr fun g live large => ?_
    exact Nat.not_lt.mpr (sized.small g live) (of_decide_eq_true large).2
  rw [largeOf, List.filter_append, none, List.nil_append]
  refine List.filter_congr fun g live => decide_eq_decide.mpr ?_
  exact ⟨fun own => own.1, fun own => ⟨own, sized.large g live⟩⟩

theorem Sized.mem_largeOf (sized : s.Sized) : g ∈ s.largeOf slab ↔ g ∈ s.large ∧ g.slab = slab := by
  rw [sized.largeOf_eq, List.mem_filter, decide_eq_true_eq]

namespace Sound

theorem tabled (sound : s.Sound pages) (sized : s.Sized) (found : s.machine.slabs[slab]? = some allocator) :
    s.Tabled slab allocator.large := by
  have keeps := (sound.slabs slab allocator found).large
  rw [← sized.largeOf_eq] at keeps
  refine ⟨?_, keeps.listed, keeps.counted, keeps.live_le, fun entry listed => ?_⟩
  · refine (keeps.listed.map LargeAllocation.addr).nodup_iff.mpr ?_
    rw [sized.largeOf_eq]
    exact sound.entries_distinct slab
  · obtain ⟨g, own, rfl⟩ := List.mem_map.mp (keeps.listed.mem_iff.mp listed)
    have live := (sized.mem_largeOf.mp own).1
    have start := sound.large_block_addr live
    obtain ⟨z, member, covers, state⟩ :=
      sound.allocator.allocated (List.mem_append_right _ (block_of_large live))
    rw [start] at covers state
    exact ⟨_, Order.ofPages_eq _, (sound.held g live).1, z, member, covers, state⟩

theorem isFull_iff (sound : s.Sound pages) (sized : s.Sized)
    (found : s.machine.slabs[slab]? = some allocator) :
    allocator.large.isFull = true ↔ (s.largeOf slab).length = 256 := by
  have tabled := sound.tabled sized found
  have length := tabled.listed.length_eq
  rw [List.length_map] at length
  rw [LargeTable.isFull, beq_iff_eq, tabled.counted, length]
  rfl

end Sound

theorem allocatePages_eq (m : Machine) (flags : ZoneFlags) (count : Nat) :
    (m.allocatePages flags count none).outcome = (m.backing.allocate flags count).outcome >>= fun answer =>
      .ok (answer.1, m.setPages answer.2.pages) := by
  simp only [allocatePages, pages, Backing.allocate, Traced.outcome_bind, Traced.outcome_pure, bind_assoc,
    ok_bind]

namespace Sound

/-- With room in the table, a request fails just as the page allocator does. -/
theorem allocateLarge_refused_iff {k : Backing} {answer : Except SlabError Nat} {changed : SlabAllocator}
    (sound : s.Sound pages) (found : s.machine.slabs[slab]? = some allocator)
    (room : allocator.large.isFull = false)
    (answers : (allocator.allocateLarge size s.machine.backing).outcome = .ok (answer, changed, k))
    (reason : SlabError) : answer = .error reason ↔ ∃ refusal machine, reason = .page refusal ∧
      (s.machine.allocatePages allocator.flags (Word.divUp size pageSize) none).outcome =
        .ok (.error refusal, machine) := by
  rw [allocatePages_eq]
  rcases SlabAllocator.allocateLarge_cases answers with
    ⟨full, _⟩ | ⟨_, ⟨refusal, asked, rfl, _⟩ | ⟨addr, entered, table, asked, inserted, rfl, _⟩⟩
  · cases room.symm.trans full
  · rw [asked, ok_bind]
    constructor
    · rintro ⟨⟩
      exact ⟨refusal, _, rfl, rfl⟩
    · rintro ⟨other, machine, rfl, same⟩
      cases same
      rfl
  · -- a table with room takes the entry
    have keeps := (sound.slabs slab allocator found).large
    have vacant : allocator.large.live < LargeTable.capacity := by
      refine Nat.lt_of_le_of_ne keeps.live_le fun same => ?_
      cases room.symm.trans (beq_iff_eq.mpr same)
    obtain ⟨after, entering, _⟩ := LargeTable.insert_keeps keeps vacant ⟨addr, Word.divUp size pageSize⟩
    cases inserted.symm.trans entering
    rw [asked, ok_bind]
    refine iff_of_false nofun ?_
    rintro ⟨other, machine, rfl, same⟩
    cases same

theorem trackingFull_iff {k : Backing} {answer : Except SlabError Nat} {changed : SlabAllocator}
    (sound : s.Sound pages) (sized : s.Sized) (found : s.machine.slabs[slab]? = some allocator)
    (answers : (allocator.allocateLarge size s.machine.backing).outcome = .ok (answer, changed, k)) :
    answer = .error .trackingFull ↔ (s.largeOf slab).length = 256 := by
  rw [← sound.isFull_iff sized found]
  cases filled : allocator.large.isFull with
  | true =>
      rcases SlabAllocator.allocateLarge_cases answers with ⟨_, rfl, _⟩ | ⟨room, _⟩
      · exact iff_of_true rfl rfl
      · cases filled.symm.trans room
  | false =>
      refine iff_of_false (fun same => ?_) Bool.false_ne_true
      obtain ⟨_, _, other, _⟩ := (sound.allocateLarge_refused_iff found filled answers _).mp same
      cases other

theorem slabAllocate_large (sound : s.Sound pages) (sized : s.Sized)
    (found : s.machine.slabs[slab]? = some allocator) (large : SizeClass.largest < size) :
    ∃ answer next, (s.machine.slabAllocate slab size).outcome = .ok (some answer, next.machine) ∧
      s.perform (.slabAllocate slab size) = .ok next ∧
      s.Answered slab size allocator.flags answer next := by
  have asked := allocator.allocate_large s.machine.backing large
  have room (several : (s.largeOf slab).length ≠ 256) : allocator.large.isFull = false :=
    Bool.eq_false_of_not_eq_true (mt (sound.isFull_iff sized found).mp several)
  rcases sound.allocateLarge_kept found size with
    ⟨start, changed, after, answer, _⟩ | ⟨reason, after, answer, alike⟩
  · have performed := perform_slabAllocate_ok found (asked.trans answer)
    rw [if_neg (Nat.not_le.mpr large)] at performed
    refine ⟨.ok start, _, ?_, performed, sound.trackingFull_iff sized found answer,
      fun several => sound.allocateLarge_refused_iff found (room several) answer, nofun⟩
    rw [slabAllocate_eq found, asked, answer]
    rfl
  · refine ⟨.error reason, _, ?_, perform_slabAllocate_error found (asked.trans answer),
      sound.trackingFull_iff sized found answer,
      fun several => sound.allocateLarge_refused_iff found (room several) answer,
      fun _ _ => ⟨sound.unchanged alike, rfl⟩⟩
    rw [slabAllocate_eq found, asked, answer, ok_bind, setSlab_self found]
    rfl

/-- A page start that the table does not list is refused. -/
theorem slabFree_untracked (sound : s.Sound pages) (found : s.machine.slabs[slab]? = some allocator)
    (paged : pageSize ∣ addr) (absent : ∀ g ∈ s.large, g.slab = slab → g.addr ≠ addr) :
    ∃ next, (s.machine.slabFree slab addr).outcome = .ok (some (.error .notAllocated), next.machine) ∧
      s.perform (.slabFree slab addr) = .ok next ∧ s.machine.Unchanged next.machine ∧
      next = s.withMachine next.machine := by
  rcases sound.slabFree_cases found addr with
    ⟨_, _, _, _, live, _⟩ | ⟨reason, after, answer, alike, refuses⟩
  · rcases live with ⟨g, live, rfl⟩ | ⟨g, live, own, start⟩
    · exact absurd paged (sound.small_unpaged live)
    · exact absurd start (absent g live own)
  · have reasoned : reason = .notAllocated := by
      cases refuses with
      | foreign | untracked | unused => rfl
      | headless _ unpaged _ => exact absurd paged unpaged
      | between unpaged _ _ => exact absurd paged unpaged
    subst reasoned
    refine ⟨_, ?_, perform_slabFree_error found answer, sound.unchanged alike, rfl⟩
    rw [slabFree_eq found, answer, ok_bind, setSlab_self found]
    rfl

theorem freed_large {changed : SlabAllocator} {after : Backing} (sound : s.Sound pages)
    (found : s.machine.slabs[slab]? = some allocator) (live : g ∈ s.large) (own : g.slab = slab)
    (answer : (allocator.free g.addr s.machine.backing).outcome = .ok (.ok (), changed, after)) :
    ∃ table, changed = { allocator with large := table } ∧
      allocator.large.entries.Perm (g.entry :: table.entries) ∧
      PageAllocator.Returned s.machine.zones after.pages.zones.zones g.block := by
  have paged := (sound.held g live).1
  have start := sound.large_block_addr live
  obtain ⟨k, alike, ⟨_, other⟩ | ⟨_, _, asked⟩ | ⟨_, unpaged, _⟩⟩ := allocator.free_eq sound.allocator g.addr
  · cases other.symm.trans answer
  · rcases SlabAllocator.freeLarge_cases (asked.symm.trans answer) with
      ⟨refused, _⟩ | ⟨entry, table, taken, freed, rfl⟩
    · exact absurd rfl refused
    have keeps := (sound.slabs slab allocator found).large
    obtain ⟨rest, again, removed, _⟩ := LargeTable.remove_listed keeps (sound.entries_distinct slab)
      (List.mem_map_of_mem (List.mem_filter.mpr ⟨live, decide_eq_true own⟩))
    obtain ⟨_, rfl⟩ := Prod.mk.inj (Except.ok.inj (again.symm.trans taken))
    obtain ⟨⟨result, allocated⟩, gone, freed⟩ := Traced.bind_eq_ok.mp freed
    cases freed
    have returned := (alike.sound sound.allocator).free_returned
      (List.mem_append_right _ (block_of_large live)) (start.symm ▸ gone)
    rw [alike.zones] at returned
    exact ⟨_, rfl, removed, returned⟩
  · exact absurd paged unpaged

/-- A live allocation leaves the table, and its block goes back. -/
theorem slabFree_large (sound : s.Sound pages) (found : s.machine.slabs[slab]? = some allocator)
    (live : g ∈ s.large) (own : g.slab = slab) :
    ∃ table next, (s.machine.slabFree slab g.addr).outcome = .ok (some (.ok ()), next.machine) ∧
      s.perform (.slabFree slab g.addr) = .ok next ∧ s.Ends slab g.addr next ∧
      next.machine.slabs = s.machine.slabs.set slab { allocator with large := table } ∧
      allocator.large.entries.Perm (g.entry :: table.entries) ∧
      PageAllocator.Returned s.machine.zones next.machine.zones g.block := by
  rcases sound.slabFree_cases found g.addr with
    ⟨changed, after, nextPages, answer, held, _, _⟩ | ⟨_, _, _, _, refuses⟩
  · obtain ⟨table, rfl, removed, returned⟩ := sound.freed_large found live own answer
    refine ⟨table, _, ?_, perform_slabFree_ok found answer, ?_, rfl, removed, returned⟩
    · rw [slabFree_eq found, answer]
      rfl
    · refine sound.freed_ends _ (.inr ⟨g, live, own, rfl⟩) (fun h listed same => ?_) rfl rfl rfl
      exact absurd (same ▸ (sound.held g live).1) (sound.small_unpaged listed)
  · exact absurd rfl (sound.refuses_dead refuses g (List.mem_append_right _ live) own)

end Sound

/-- In every session the table of a slab allocator mirrors the live allocations larger than half a page;
only a full table and the page allocator refuse one more, and each that is live can be freed. -/
theorem reached_large (reached : Reached s) (found : s.machine.slabs[slab]? = some allocator) :
    s.LargeExact slab allocator := by
  obtain ⟨pages, sound⟩ := reached.sound
  have sized := reached.sized
  refine ⟨sound.tabled sized found, fun size => sound.slabAllocate_large sized found, fun g own => ?_,
    fun addr paged absent => ?_⟩
  · obtain ⟨live, holder⟩ := sized.mem_largeOf.mp own
    exact sound.slabFree_large found live holder
  · exact sound.slabFree_untracked found paged fun g live own => absent g (sized.mem_largeOf.mpr ⟨live, own⟩)

theorem reached_large_eight : ∃ (s : Session) (g : SlabGrant) (allocator : SlabAllocator),
    (Reached s ∧ s.large = [g] ∧ s.machine.slabs[g.slab]? = some allocator) ∧
    allocator.large.live = 1 ∧ s.LargeExact g.slab allocator := by
  obtain ⟨s, reached, lengths⟩ := oneOfEach_reached
  obtain ⟨g, only⟩ := List.length_eq_one_iff.mp lengths.2.1
  obtain ⟨pages, sound⟩ := reached.sound
  have bound := (sound.held g (only ▸ List.mem_singleton_self g)).2
  have found := List.getElem?_eq_getElem bound
  have exact := reached_large reached found
  refine ⟨s, g, _, ⟨reached, only, found⟩, ?_, exact⟩
  rw [exact.tabled.counted, exact.tabled.listed.length_eq, reached.sized.largeOf_eq, only]
  simp

end Session

end Machine

end ZonedMemory
