import ZonedMemory.Proofs.Machine.Sound

namespace ZonedMemory

/-!
Slab allocators at work. An object is taken off a page of its class or put back on it; whole pages
come from the page allocator and are entered into the table.
-/

namespace SlabAllocator.Keeps

variable {a : SlabAllocator} {pages : List SlabPage} {large : List LargeAllocation} {addr : Nat}
  {free : List Nat}

theorem relist (keeps : a.Keeps pages large) : a.Keeps (pages.map (SlabPage.relist addr free)) large := by
  refine ⟨fun sizeClass bound => ?_, keeps.large⟩
  obtain ⟨objectSize, chained, counted⟩ := keeps.caches sizeClass bound
  have same : (pages.map (SlabPage.relist addr free)).filter (fun p => p.sizeClass = sizeClass) =
      (pages.filter fun p => p.sizeClass = sizeClass).map (SlabPage.relist addr free) := by
    simp only [List.filter_map, Function.comp_def, SlabPage.relist_sizeClass]
  rw [same]
  exact ⟨objectSize, chained.relist, by rw [List.length_map, counted]⟩

end SlabAllocator.Keeps

namespace SlabAllocator

variable {k : Backing} {pages : List SlabPage} {others : List Block} {size : Nat}

theorem allocate_large (a : SlabAllocator) (k : Backing) (large : SizeClass.largest < size) :
    (a.allocate size k).outcome = (a.allocateLarge size k).outcome := by
  rw [allocate, if_pos large]

theorem allocate_small (a : SlabAllocator) (k : Backing) (small : size ≤ SizeClass.largest) :
    (a.allocate size k).outcome = (a.allocateObject (SizeClass.holding size) k).outcome := by
  simp only [allocate, if_neg (Nat.not_lt.mpr small), Traced.outcome_bind, Traced.outcome_lift,
    SizeClass.ofSize_eq small, ok_bind]

section AllocateObject

variable {a : SlabAllocator} {k walked after : Backing} {cache : SlabCache} {sizeClass page : Nat}

theorem allocateObject_found (bound : sizeClass < SizeClass.count)
    (search : (a.caches[sizeClass].pageWithSpace k).outcome = .ok (some page, walked)) :
    (a.allocateObject sizeClass k).outcome =
      (takeObject page a.caches[sizeClass].objectSize walked).outcome >>= fun answer =>
        .ok (.ok answer.1, a, answer.2) := by
  simp only [allocateObject, cache, dif_pos bound, Traced.outcome_bind, Traced.outcome_lift, search, ok_bind,
    Traced.outcome_pure]

theorem allocateObject_grown (bound : sizeClass < SizeClass.count)
    (search : (a.caches[sizeClass].pageWithSpace k).outcome = .ok (none, walked))
    (grown : (a.caches[sizeClass].grow a.flags walked).outcome = .ok (.ok page, cache, after)) :
    (a.allocateObject sizeClass k).outcome =
      (takeObject page cache.objectSize after).outcome >>= fun answer =>
        .ok (.ok answer.1, { a with caches := a.caches.set sizeClass cache }, answer.2) := by
  simp only [allocateObject, SlabAllocator.cache, setCache, dif_pos bound, Traced.outcome_bind,
    Traced.outcome_lift, search, grown, ok_bind, Traced.outcome_pure]

theorem allocateObject_refused {reason : AllocError} (bound : sizeClass < SizeClass.count)
    (search : (a.caches[sizeClass].pageWithSpace k).outcome = .ok (none, walked))
    (refused : (a.caches[sizeClass].grow a.flags walked).outcome = .ok (.error reason, cache, after)) :
    (a.allocateObject sizeClass k).outcome = .ok (.error (.page reason), a, after) := by
  simp only [allocateObject, SlabAllocator.cache, dif_pos bound, Traced.outcome_bind, Traced.outcome_lift,
    search, refused, ok_bind, Traced.outcome_pure]

end AllocateObject

/-- A page start is looked up in the table, any other address in the page around it. -/
theorem free_eq {live : List Block} (sound : k.pages.Sound live) (a : SlabAllocator) (addr : Nat) :
    ∃ after, Backing.Alike k after ∧
      (¬ k.pages.Covers addr ∧ (a.free addr k).outcome = .ok (.error .notAllocated, a, after) ∨
        k.pages.Covers addr ∧ pageSize ∣ addr ∧
          (a.free addr k).outcome = (a.freeLarge addr after).outcome ∨
        k.pages.Covers addr ∧ ¬ pageSize ∣ addr ∧
          (a.free addr k).outcome =
            (freeObject addr after).outcome >>= fun answer => .ok (answer.1, a, answer.2)) := by
  obtain ⟨zone, after, looked, alike, covering⟩ := Backing.zoneOf_eq sound addr
  refine ⟨after, alike, ?_⟩
  cases zone with
  | none =>
      refine .inl ⟨fun covers => Bool.false_ne_true (covering.mpr covers), ?_⟩
      simp only [free, Traced.outcome_bind, Traced.outcome_lift, looked, ok_bind, Traced.outcome_report,
        Traced.outcome_pure]
  | some zone =>
      have covers := covering.mp rfl
      by_cases paged : pageSize ∣ addr
      · refine .inr (.inl ⟨covers, paged, ?_⟩)
        simp only [free, Traced.outcome_bind, Traced.outcome_lift, looked, Address.isAligned_page,
          decide_eq_true paged, ok_bind, if_true]
      · refine .inr (.inr ⟨covers, paged, ?_⟩)
        simp only [free, Traced.outcome_bind, Traced.outcome_lift, looked, Address.isAligned_page,
          decide_eq_false paged, ok_bind, Bool.false_eq_true, if_false, Traced.outcome_pure]

end SlabAllocator

namespace Machine

variable {m : Machine} {k : Backing} {slab other : Nat} {allocator changed : SlabAllocator}

theorem slabAllocate_eq (found : m.slabs[slab]? = some allocator) (size : Nat) :
    (m.slabAllocate slab size).outcome = (allocator.allocate size m.backing).outcome >>= fun answer =>
      .ok (some answer.1, m.setSlab slab answer.2.1 answer.2.2) := by
  simp only [slabAllocate, found, Traced.outcome_bind, Traced.outcome_pure]

theorem slabFree_eq (found : m.slabs[slab]? = some allocator) (addr : Nat) :
    (m.slabFree slab addr).outcome = (allocator.free addr m.backing).outcome >>= fun answer =>
      .ok (some answer.1, m.setSlab slab answer.2.1 answer.2.2) := by
  simp only [slabFree, found, Traced.outcome_bind, Traced.outcome_pure]

theorem setSlab_self (found : m.slabs[slab]? = some allocator) :
    m.setSlab slab allocator k = { m with backing := k } := by
  obtain ⟨bound, here⟩ := List.getElem?_eq_some_iff.mp found
  rw [setSlab, ← here, List.set_getElem_self]

theorem setSlab_here (found : m.slabs[slab]? = some allocator) :
    (m.setSlab slab changed k).slabs[slab]? = some changed := by
  have bound := (List.getElem?_eq_some_iff.mp found).1
  rw [setSlab, List.getElem?_set_self bound]

theorem setSlab_other (different : other ≠ slab) :
    (m.setSlab slab changed k).slabs[other]? = m.slabs[other]? := by
  rw [setSlab, List.getElem?_set_ne different.symm]

theorem setSlab_length : (m.setSlab slab changed k).slabs.length = m.slabs.length := List.length_set

theorem setSlab_flags {held : SlabAllocator} (found : m.slabs[slab]? = some allocator)
    (flags : changed.flags = allocator.flags) (here : m.slabs[other]? = some held) :
    ∃ after, (m.setSlab slab changed k).slabs[other]? = some after ∧ after.flags = held.flags := by
  by_cases same : other = slab
  · subst same
    obtain rfl := Option.some.inj (found.symm.trans here)
    exact ⟨changed, setSlab_here found, flags⟩
  · exact ⟨held, (setSlab_other same).trans here, rfl⟩

namespace Session

/-- A later session of the same machine, in which what is still live has kept its bytes, and so has
all that lies in no zone. -/
structure Follows (s next : Session) : Prop where
  kin : PageAllocator.Kin s.machine.pages next.machine.pages
  kept : ∀ r ∈ s.allocations, r ∈ next.allocations → ∀ place, r.Holds place →
    next.machine.backing.memory.byte place = s.machine.backing.memory.byte place
  confined : ∀ place, ¬ s.machine.pages.Covers place →
    next.machine.backing.memory.byte place = s.machine.backing.memory.byte place

def withBacking (s : Session) (k : Backing) : Session :=
  s.withMachine { s.machine with backing := k }

def withSlab (s : Session) (slab : Nat) (allocator : SlabAllocator) (k : Backing) : Session :=
  s.withMachine (s.machine.setSlab slab allocator k)

variable {s : Session} {pages : List SlabPage} {p q : SlabPage} {g : SlabGrant} {k : Backing}
  {memory : Memory} {allocator : SlabAllocator} {slab object size addr sizeClass : Nat} {free rest : List Nat}

theorem follows_alike (same : Backing.Alike s.machine.backing k) : s.Follows (s.withBacking k) where
  kin := same.kin
  kept r _ _ place _ := by
    change k.memory.byte place = _
    rw [same.memory]
  confined place _ := by
    change k.memory.byte place = _
    rw [same.memory]

namespace Kept

theorem withBacking (kept : s.Kept pages) (laid : k.Laid pages s.blocks)
    (kin : PageAllocator.Kin s.machine.pages k.pages) : (s.withBacking k).Kept pages where
  laid := laid
  slabs := kept.slabs
  owned p member := by
    obtain ⟨allocator, found, provides⟩ := kept.owned p member
    exact ⟨allocator, found, kin.provides provides⟩
  held := kept.held

theorem alike (kept : s.Kept pages) (same : Backing.Alike s.machine.backing k) :
    (s.withBacking k).Kept pages := kept.withBacking (kept.laid.alike same) same.kin

theorem grown {cache : SlabCache} (kept : s.Kept pages)
    (found : s.machine.slabs[p.slab]? = some allocator) (bound : p.sizeClass < SizeClass.count)
    (laid : k.Laid (p :: pages) s.blocks)
    (keeps : cache.Keeps p.sizeClass
      (p :: (pages.filter fun q => q.slab = p.slab).filter fun q => q.sizeClass = p.sizeClass))
    (provides : s.machine.pages.Provides allocator.flags p.block)
    (kin : PageAllocator.Kin s.machine.pages k.pages) :
    (s.withSlab p.slab { allocator with caches := allocator.caches.set p.sizeClass cache } k).Kept
      (p :: pages) where
  laid := laid
  slabs slab changed here := by
    by_cases same : slab = p.slab
    · subst same
      obtain rfl := Option.some.inj ((setSlab_here found).symm.trans here)
      have before := kept.slabs _ allocator found
      rw [List.filter_cons_of_pos (by simp)]
      refine ⟨fun sizeClass small => ?_, before.large⟩
      by_cases ofClass : p.sizeClass = sizeClass
      · subst ofClass
        rw [List.filter_cons_of_pos (by simp), Vector.getElem_set_self]
        exact keeps
      · rw [List.filter_cons_of_neg (by simpa using ofClass), Vector.getElem_set_ne _ _ ofClass]
        exact before.caches sizeClass small
    · change (s.machine.setSlab _ _ _).slabs[slab]? = _ at here
      rw [setSlab_other same] at here
      rw [List.filter_cons_of_neg (by simpa using Ne.symm same)]
      exact kept.slabs slab changed here
  owned q listed := by
    rcases List.mem_cons.mp listed with rfl | listed
    · exact ⟨_, setSlab_here found, kin.provides provides⟩
    · obtain ⟨held, here, provided⟩ := kept.owned q listed
      have same : SlabAllocator.flags { allocator with caches := allocator.caches.set p.sizeClass cache } =
          allocator.flags := rfl
      obtain ⟨after, found, flags⟩ := setSlab_flags (k := k) found same here
      exact ⟨after, found, flags ▸ kin.provides provided⟩
  held g live := by
    change _ ∧ g.slab < (s.machine.setSlab _ _ _).slabs.length
    rw [setSlab_length]
    exact kept.held g live

theorem fresh_block {x : Block} (laid : k.Laid (p :: pages) s.blocks)
    (block : x ∈ pages.map SlabPage.block ++ s.blocks) :
    x.addr + x.bytes ≤ p.addr ∨ p.addr + pageSize ≤ x.addr := by
  have apart := (List.pairwise_cons.mp laid.allocator.serving.apart).1 x block
  rw [Block.apart_iff_addr, (laid.placed (List.mem_cons_self ..)).block_addr, p.block_bytes] at apart
  omega

end Kept

namespace Sound

theorem alike (sound : s.Sound pages) (same : Backing.Alike s.machine.backing k) :
    (s.withBacking k).Sound pages := sound.unwritten (sound.toKept.alike same) same.memory rfl

theorem slot_page (sound : s.Sound pages) (left : p ∈ pages) (right : q ∈ pages)
    (slot : Slot p.addr p.sizeClass object) (other : Slot q.addr q.sizeClass object) : p = q := by
  have start := slot.page_eq (sound.stocked.placed left).small (sound.stocked.placed left).paged
  have same := other.page_eq (sound.stocked.placed right).small (sound.stocked.placed right).paged
  exact sound.stocked.eq_of_addr left right (start.symm.trans same)

/-- One page has its free list changed, and the ledger changes with it. -/
theorem relisted {small : List SlabGrant} (sound : s.Sound pages) (member : p ∈ pages)
    (formatted : SlabPage.Formatted memory { p with free := free })
    (translator : memory.translator = s.machine.backing.memory.translator)
    (frame : ∀ place, ¬ p.Covers place →
      memory.byte place = s.machine.backing.memory.byte place)
    (served : ∀ g ∈ small, ∃ q ∈ pages.map (SlabPage.relist p.addr free), q.Serves g)
    (taken : ∀ q ∈ pages.map (SlabPage.relist p.addr free), ∀ object,
      Slot q.addr q.sizeClass object → object ∉ q.free → ∃ g ∈ small, g.addr = object)
    (distinct : (small.map SlabGrant.addr).Nodup) :
    Sound { s.withBacking { s.machine.backing with memory := memory } with small := small }
      (pages.map (SlabPage.relist p.addr free)) where
  laid := (sound.stocked.relist member formatted translator frame).toLaid
  formatted := (sound.stocked.relist member formatted translator frame).formatted
  slabs slab allocator found := by
    have same : (pages.map (SlabPage.relist p.addr free)).filter (fun q => q.slab = slab) =
        (pages.filter fun q => q.slab = slab).map (SlabPage.relist p.addr free) := by
      simp only [List.filter_map, Function.comp_def, SlabPage.relist_slab]
    rw [same]
    exact (sound.slabs slab allocator found).relist
  owned q listed := by
    obtain ⟨before, member, rfl⟩ := List.mem_map.mp listed
    rw [SlabPage.relist_slab, SlabPage.relist_block]
    exact sound.owned before member
  served := served
  taken := taken
  distinct := distinct
  held := sound.held

theorem mem_relist (sound : s.Sound pages) (member : p ∈ pages)
    (listed : q ∈ pages.map (SlabPage.relist p.addr free)) :
    q = { p with free := free } ∨ q ∈ pages ∧ q.addr ≠ p.addr := by
  obtain ⟨before, kept, rfl⟩ := List.mem_map.mp listed
  by_cases same : before.addr = p.addr
  · rw [SlabPage.relist, if_pos same, sound.stocked.eq_of_addr kept member same]
    exact .inl rfl
  · rw [SlabPage.relist, if_neg same]
    exact .inr ⟨kept, same⟩

theorem relist_mem (member : p ∈ pages) :
    { p with free := free } ∈ pages.map (SlabPage.relist p.addr free) := by
  refine List.mem_map.mpr ⟨p, member, ?_⟩
  rw [SlabPage.relist, if_pos rfl]

theorem relist_mem_of_ne (member : q ∈ pages) (different : q.addr ≠ addr) :
    q ∈ pages.map (SlabPage.relist addr free) := by
  refine List.mem_map.mpr ⟨q, member, ?_⟩
  rw [SlabPage.relist, if_neg different]

theorem take (sound : s.Sound pages) (member : p ∈ pages) (some : p.free = object :: rest)
    (fits : SizeClass.holding size = p.sizeClass) (objectSize : Nat) :
    ∃ after, (SlabAllocator.takeObject p.addr objectSize s.machine.backing).outcome = .ok (object, after) ∧
      Sound { s.withBacking after with small := ⟨p.slab, object, size⟩ :: s.small }
        (pages.map (SlabPage.relist p.addr rest)) ∧
      after.pages = s.machine.backing.pages ∧
      ∀ place, ¬ p.InHeader place → after.memory.byte place = s.machine.backing.memory.byte place := by
  have formatted := sound.stocked.formatted p member
  obtain ⟨memory, answer, relinked, translator, frame⟩ :=
    SlabPage.takeObject_eq formatted objectSize (sound.stocked.page_reached member) some
  have slots := formatted.slots
  have nodup := formatted.distinct
  rw [some] at slots nodup
  have slot := slots object (List.mem_cons_self ..)
  have unused := (List.nodup_cons.mp nodup).1
  have outside : ∀ place, ¬ p.Covers place →
      memory.byte place = s.machine.backing.memory.byte place := fun place away =>
    frame place fun header => away (formatted.manages_covers (.inl header))
  refine ⟨_, answer, sound.relisted member relinked translator outside ?_ ?_ ?_, rfl, frame⟩
  · intro g listed
    rcases List.mem_cons.mp listed with rfl | listed
    · exact ⟨_, relist_mem member, rfl, fits.symm, slot, unused⟩
    · obtain ⟨q, other, serves⟩ := sound.served g listed
      by_cases same : q.addr = p.addr
      · obtain rfl := sound.stocked.eq_of_addr other member same
        refine ⟨_, relist_mem member, serves.slab, serves.sizeClass, serves.slot, fun free => ?_⟩
        exact serves.used (some ▸ List.mem_cons_of_mem _ free)
      · exact ⟨q, relist_mem_of_ne other same, serves⟩
  · intro q listed other otherSlot used
    rcases sound.mem_relist member listed with rfl | ⟨before, _⟩
    · by_cases same : other = object
      · exact ⟨_, List.mem_cons_self .., same.symm⟩
      · have absent : other ∉ p.free := by
          rw [some]
          exact List.not_mem_cons_of_ne_of_not_mem same used
        obtain ⟨g, live, start⟩ := sound.taken p member other otherSlot absent
        exact ⟨g, List.mem_cons_of_mem _ live, start⟩
    · obtain ⟨g, live, start⟩ := sound.taken q before other otherSlot used
      exact ⟨g, List.mem_cons_of_mem _ live, start⟩
  · refine List.nodup_cons.mpr ⟨fun listed => ?_, sound.distinct⟩
    obtain ⟨g, live, start⟩ := List.mem_map.mp listed
    obtain ⟨q, other, serves⟩ := sound.served g live
    change g.addr = object at start
    obtain rfl := sound.slot_page member other slot (start ▸ serves.slot)
    exact serves.used (by rw [start, some]; exact List.mem_cons_self ..)

theorem give (sound : s.Sound pages) (member : p ∈ pages) (slot : Slot p.addr p.sizeClass object)
    (used : object ∉ p.free) :
    Sound { s.withBacking { s.machine.backing with
        memory := SlabHeader.writeFreeList (s.machine.backing.memory.setNumber object 8 p.head) p.addr object
          (p.free.length + 1) } with
        small := s.small.filter fun g => g.addr ≠ object }
      (pages.map (SlabPage.relist p.addr (object :: p.free))) := by
  have formatted := sound.stocked.formatted p member
  have inside := formatted.slot_covered slot
  have least : SlabHeader.size ≤ pageSize := by decide
  refine sound.relisted member (formatted.give slot used) ?_ ?_ ?_ ?_ ?_
  · rw [SlabHeader.translator_writeFreeList, Memory.translator_setNumber]
  · intro place away
    simp only [SlabPage.Covers] at away
    rw [SlabHeader.byte_writeFreeList (by omega), Memory.byte_setNumber_outside (by omega)]
  · intro g listed
    obtain ⟨live, different⟩ := List.mem_filter.mp listed
    obtain ⟨q, other, serves⟩ := sound.served g live
    by_cases same : q.addr = p.addr
    · obtain rfl := sound.stocked.eq_of_addr other member same
      refine ⟨_, relist_mem member, serves.slab, serves.sizeClass, serves.slot, fun free => ?_⟩
      rcases List.mem_cons.mp free with equal | free
      · exact of_decide_eq_true different equal
      · exact serves.used free
    · exact ⟨q, relist_mem_of_ne other same, serves⟩
  · intro q listed other otherSlot unlisted
    rcases sound.mem_relist member listed with rfl | ⟨before, elsewhere⟩
    · have different := List.ne_of_not_mem_cons unlisted
      have absent := List.not_mem_of_not_mem_cons unlisted
      obtain ⟨g, live, start⟩ := sound.taken p member other otherSlot absent
      exact ⟨g, List.mem_filter.mpr ⟨live, decide_eq_true (start ▸ different)⟩, start⟩
    · obtain ⟨g, live, start⟩ := sound.taken q before other otherSlot unlisted
      refine ⟨g, List.mem_filter.mpr ⟨live, decide_eq_true fun equal => ?_⟩, start⟩
      rw [← start, equal] at otherSlot
      exact elsewhere (congrArg SlabPage.addr (sound.slot_page before member otherSlot slot))
  · exact sound.distinct.sublist (List.filter_sublist.map _)

theorem grown {cache : SlabCache} (sound : s.Sound pages)
    (found : s.machine.slabs[p.slab]? = some allocator) (bound : p.sizeClass < SizeClass.count)
    (whole : ∀ object, Slot p.addr p.sizeClass object → object ∈ p.free)
    (stocked : k.Stocked (p :: pages) s.blocks)
    (keeps : cache.Keeps p.sizeClass
      (p :: (pages.filter fun q => q.slab = p.slab).filter fun q => q.sizeClass = p.sizeClass))
    (provides : s.machine.pages.Provides allocator.flags p.block)
    (kin : PageAllocator.Kin s.machine.pages k.pages) :
    (s.withSlab p.slab { allocator with caches := allocator.caches.set p.sizeClass cache } k).Sound
      (p :: pages) where
  toKept := sound.toKept.grown found bound stocked.toLaid keeps provides kin
  formatted := stocked.formatted
  served g live := by
    obtain ⟨q, listed, serves⟩ := sound.served g live
    exact ⟨q, List.mem_cons_of_mem _ listed, serves⟩
  taken q listed object slot used := by
    rcases List.mem_cons.mp listed with rfl | listed
    · exact absurd (whole object slot) used
    · exact sound.taken q listed object slot used
  distinct := sound.distinct

theorem fresh_page {r : Range} {place : Nat} (sound : s.Sound pages) (laid : k.Laid (p :: pages) s.blocks)
    (live : r ∈ s.allocations) (holds : r.Holds place) : ¬ p.Covers place := by
  intro covers
  obtain ⟨x, block, inside⟩ := sound.allocation_inside live
  have apart := Kept.fresh_block laid block
  simp only [Range.Holds] at holds
  simp only [SlabPage.Covers] at covers
  omega

/-- A request for an object is met from a page of its class, or refused with nothing changed. -/
theorem allocateObject_sound (sound : s.Sound pages) (found : s.machine.slabs[slab]? = some allocator)
    (fits : SizeClass.holding size = sizeClass) (bound : sizeClass < SizeClass.count) :
    (∃ (object : Nat) (changed : SlabAllocator) (after : Backing) (next : List SlabPage),
      (allocator.allocateObject sizeClass s.machine.backing).outcome = .ok (.ok object, changed, after) ∧
      Sound { s.withSlab slab changed after with small := ⟨slab, object, size⟩ :: s.small } next ∧
      s.Follows { s.withSlab slab changed after with small := ⟨slab, object, size⟩ :: s.small }) ∨
    ∃ reason after, (allocator.allocateObject sizeClass s.machine.backing).outcome =
        .ok (.error reason, allocator, after) ∧ Backing.Alike s.machine.backing after := by
  have keeps := (sound.slabs slab allocator found).caches sizeClass bound
  have part : ((pages.filter fun q => q.slab = slab).filter fun q => q.sizeClass = sizeClass).Sublist
      pages := List.filter_sublist.trans List.filter_sublist
  obtain ⟨answer, walked, search, alike, result⟩ := SlabCache.walkFrom_eq sound.stocked
    allocator.caches[sizeClass].objectSize (fun q listed => part.subset listed) keeps.chained
  rw [← keeps.counted] at search
  have later := sound.alike alike
  have walkedStocked : walked.Stocked pages s.blocks := later.stocked
  rcases result with ⟨rfl, _⟩ | ⟨p, listed, space, rfl⟩
  -- no page of the class has a free object, so the object is the first one of a new page
  · rcases SlabCache.grow_laid walkedStocked.toLaid keeps part bound slab allocator.flags with
      ⟨page, cache, grown, answer, served, formatted, kept, provides, kin, translator, frame⟩ |
      ⟨reason, after, answer, again⟩
    · have stocked : grown.Stocked _ s.blocks := walkedStocked.join kin served formatted translator frame
      have middle := later.grown (p := SlabCache.newPage slab sizeClass page _) found bound
        (fun object slot => mem_slots.mpr slot) stocked kept provides kin
      obtain ⟨after, taken, gained, same, header⟩ :=
        middle.take (List.mem_cons_self ..) (slots_eq_cons page bound) fits cache.objectSize
      change (SlabAllocator.takeObject page cache.objectSize grown).outcome = _ at taken
      have elsewhere (place : Nat) (away : ¬ (SlabCache.newPage slab sizeClass page
          allocator.caches[sizeClass].firstPage).Covers place) :
          after.memory.byte place = s.machine.backing.memory.byte place := by
        rw [header place fun inside => away (formatted.manages_covers (.inl inside)), ← alike.memory]
        exact frame place away
      have whole := alike.kin.trans kin
      refine .inl ⟨_, _, after, _, ?_, gained, ?_, fun r live _ place holds => ?_, fun place outside => ?_⟩
      · rw [SlabAllocator.allocateObject_grown bound search answer, taken]
        rfl
      · change PageAllocator.Kin _ after.pages
        rw [same]
        exact whole
      · exact elsewhere place (sound.fresh_page (k := grown) stocked.toLaid live holds)
      · refine elsewhere place fun covers => outside (whole.symm.covers ?_)
        exact stocked.page_covers (List.mem_cons_self ..) covers
    · exact .inr ⟨.page reason, after, SlabAllocator.allocateObject_refused bound search answer,
        alike.trans again⟩
  · obtain ⟨inSlab, ofClass⟩ := List.mem_filter.mp listed
    obtain ⟨member, own⟩ := List.mem_filter.mp inSlab
    obtain rfl := of_decide_eq_true own
    have ofClass := of_decide_eq_true ofClass
    obtain ⟨object, rest, free⟩ := List.exists_cons_of_ne_nil space
    obtain ⟨after, taken, gained, same, header⟩ := later.take member free (fits.trans ofClass.symm)
      allocator.caches[sizeClass].objectSize
    change (SlabAllocator.takeObject p.addr _ walked).outcome = _ at taken
    have elsewhere (place : Nat) (away : ¬ p.InHeader place) :
        after.memory.byte place = s.machine.backing.memory.byte place := by
      rw [header place away]
      change walked.memory.byte place = _
      rw [alike.memory]
    refine .inl ⟨object, allocator, after, pages.map (SlabPage.relist p.addr rest), ?_, ?_, ?_,
      fun r live _ place holds => ?_, fun place outside => ?_⟩
    · rw [SlabAllocator.allocateObject_found bound search, taken, ok_bind]
    · rw [withSlab, setSlab_self found]
      exact gained
    · change PageAllocator.Kin _ after.pages
      rw [same]
      exact alike.kin
    · exact elsewhere place fun inside => sound.allocation_unmanaged live holds member (.inl inside)
    · refine elsewhere place fun inside => outside ?_
      exact sound.stocked.page_covers member ((sound.formatted p member).manages_covers (.inl inside))

theorem freeObject_sound (sound : s.Sound pages) (covers : s.machine.pages.Covers addr) :
    (∃ (after : Backing) (next : List SlabPage),
      (SlabAllocator.freeObject addr s.machine.backing).outcome = .ok (.ok (), after) ∧
      (∃ g ∈ s.small, g.addr = addr) ∧
      Sound { s.withBacking after with small := s.small.filter fun g => g.addr ≠ addr } next ∧
      s.Follows { s.withBacking after with small := s.small.filter fun g => g.addr ≠ addr }) ∨
    ∃ reason, (SlabAllocator.freeObject addr s.machine.backing).outcome =
        .ok (.error reason, s.machine.backing) ∧ Backing.Denies pages addr reason := by
  rcases sound.stocked.freeObject_eq covers with ⟨p, member, slot, used, answer⟩ | refused
  · have given := sound.give member slot used
    obtain ⟨memory, written⟩ : ∃ memory, memory = SlabHeader.writeFreeList
      (s.machine.backing.memory.setNumber addr 8 p.head) p.addr addr (p.free.length + 1) := ⟨_, rfl⟩
    rw [← written] at answer given
    -- the bytes written to are those that the page manages from now on
    have elsewhere (place : Nat) (unmanaged : ¬ SlabPage.Manages { p with free := addr :: p.free } place) :
        memory.byte place = s.machine.backing.memory.byte place := by
      have header : ¬ (p.addr ≤ place ∧ place < p.addr + SlabHeader.size) := fun inside =>
        unmanaged (.inl inside)
      have word : ¬ (addr ≤ place ∧ place < addr + 8) := fun inside =>
        unmanaged (.inr ⟨addr, List.mem_cons_self .., inside⟩)
      rw [written, SlabHeader.byte_writeFreeList (by omega), Memory.byte_setNumber_outside (by omega)]
    have relisted : { p with free := addr :: p.free } ∈ pages.map (SlabPage.relist p.addr (addr :: p.free)) :=
      relist_mem member
    refine .inl ⟨_, _, answer, sound.taken p member addr slot used, given, .refl _,
      fun r live still place holds => ?_, fun place outside => ?_⟩
    · exact elsewhere place (given.allocation_unmanaged still holds relisted)
    · refine elsewhere place fun manages => outside ?_
      exact given.stocked.page_covers relisted ((given.formatted _ relisted).manages_covers manages)
  · exact .inr refused

end Sound

end Session

end Machine

end ZonedMemory
