import ZonedMemory.Proofs.Machine.Free

namespace ZonedMemory.Machine

/-!
The live objects of a size class and the pages in its cache. An object of one of the pages is live just
when it is not on the free list of the page, so the live ones can be counted by pages.
-/

/-- The cache of a size class; that of a slab allocator still to come has no pages. -/
def cacheOf (m : Machine) (slab sizeClass : Nat) : SlabCache :=
  ((m.slabs[slab]?).bind fun allocator => allocator.caches[sizeClass]?).getD
    (.empty (SizeClass.bytes sizeClass))

variable {m : Machine} {k : Backing} {allocator changed : SlabAllocator} {cache : SlabCache}
  {slab other sizeClass otherClass : Nat}

theorem cacheOf_eq (found : m.slabs[slab]? = some allocator) (bound : sizeClass < SizeClass.count) :
    m.cacheOf slab sizeClass = allocator.caches[sizeClass] := by
  rw [cacheOf, found, Option.bind_some, Vector.getElem?_eq_getElem bound, Option.getD_some]

theorem cacheOf_none (absent : m.slabs[slab]? = none) :
    m.cacheOf slab sizeClass = .empty (SizeClass.bytes sizeClass) := by
  rw [cacheOf, absent, Option.bind_none, Option.getD_none]

theorem cacheOf_setSlab (found : m.slabs[slab]? = some allocator) (same : changed.caches = allocator.caches) :
    (m.setSlab slab changed k).cacheOf other sizeClass = m.cacheOf other sizeClass := by
  by_cases here : other = slab
  · subst here
    rw [cacheOf, setSlab_here found, cacheOf, found, Option.bind_some, Option.bind_some, same]
  · rw [cacheOf, setSlab_other here, cacheOf]

theorem cacheOf_set (found : m.slabs[slab]? = some allocator) (bound : sizeClass < SizeClass.count) :
    (m.setSlab slab { allocator with caches := allocator.caches.set sizeClass cache } k).cacheOf slab sizeClass =
      cache := by
  rw [cacheOf_eq (setSlab_here found) bound, Vector.getElem_set_self]

theorem cacheOf_set_other (found : m.slabs[slab]? = some allocator) (bound : sizeClass < SizeClass.count)
    (different : ¬ (other = slab ∧ otherClass = sizeClass)) :
    (m.setSlab slab { allocator with caches := allocator.caches.set sizeClass cache } k).cacheOf other otherClass =
      m.cacheOf other otherClass := by
  by_cases here : other = slab
  · subst here
    have ofClass : sizeClass ≠ otherClass := fun same => different ⟨rfl, same.symm⟩
    rw [cacheOf, setSlab_here found, cacheOf, found, Option.bind_some, Option.bind_some,
      Vector.getElem?_set_ne _ ofClass]
  · rw [cacheOf, setSlab_other here, cacheOf]

theorem cacheOf_concat (m : Machine) (flags : ZoneFlags) (slab : Nat) (bound : sizeClass < SizeClass.count) :
    Machine.cacheOf { m with slabs := m.slabs ++ [SlabAllocator.create flags] } slab sizeClass =
      m.cacheOf slab sizeClass := by
  by_cases before : slab < m.slabs.length
  · rw [cacheOf, List.getElem?_append_left before, cacheOf]
  · have absent : m.slabs[slab]? = none := List.getElem?_eq_none (Nat.le_of_not_lt before)
    rw [cacheOf_none absent]
    by_cases last : slab = m.slabs.length
    · subst last
      rw [cacheOf_eq (List.getElem?_concat_length ..) bound]
      simp only [SlabAllocator.create, Vector.getElem_ofFn, Nat.shiftLeft_eq, SizeClass.bytes]
    · apply cacheOf_none
      apply List.getElem?_eq_none
      rw [List.length_append, List.length_singleton]
      omega

theorem slabs_setBytes (m : Machine) (addr : Nat) (bytes : List UInt8) :
    (m.setBytes addr bytes).slabs = m.slabs := by
  induction bytes generalizing m addr with
  | nil => rfl
  | cons value rest ih =>
      rw [setBytes, ih, setByte]
      split <;> rfl

namespace Session

/-- The live objects of a size class. -/
def objectsOf (s : Session) (slab sizeClass : Nat) : List SlabGrant :=
  s.small.filter fun g => g.slab = slab ∧ SizeClass.holding g.size = sizeClass

def population (s : Session) (slab sizeClass : Nat) : Nat := (s.objectsOf slab sizeClass).length

variable {s next : Session} {pages : List SlabPage} {g : SlabGrant} {size : Nat}

/-- The pages in the cache of a size class. -/
def classPages (pages : List SlabPage) (slab sizeClass : Nat) : List SlabPage :=
  (pages.filter fun p => p.slab = slab).filter fun p => p.sizeClass = sizeClass

theorem mem_classPages {p : SlabPage} : p ∈ classPages pages slab sizeClass ↔
    p ∈ pages ∧ p.slab = slab ∧ p.sizeClass = sizeClass := by
  simp only [classPages, List.mem_filter, decide_eq_true_eq, and_assoc]

namespace Sound

theorem objectsOf_perm (sound : s.Sound pages) (slab sizeClass : Nat) :
    ((s.objectsOf slab sizeClass).map SlabGrant.addr).Perm
      ((classPages pages slab sizeClass).flatMap SlabPage.used) := by
  have distinct : ((s.objectsOf slab sizeClass).map SlabGrant.addr).Nodup :=
    sound.distinct.sublist (List.filter_sublist.map _)
  have apart : ((classPages pages slab sizeClass).flatMap SlabPage.used).Nodup := by
    have listed : ∀ p ∈ classPages pages slab sizeClass, p ∈ pages := fun p own => (mem_classPages.mp own).1
    refine List.nodup_flatMap.mpr ⟨fun p _ => (slots_nodup ..).filter _, ?_⟩
    have nodup : (classPages pages slab sizeClass).Nodup :=
      sound.laid.distinct.of_map.sublist (List.filter_sublist.trans List.filter_sublist)
    refine nodup.imp_of_mem fun {p q} left right different => ?_
    intro object inLeft inRight
    exact different (sound.slot_page (listed p left) (listed q right) (SlabPage.mem_used.mp inLeft).1
      (SlabPage.mem_used.mp inRight).1)
  rw [List.perm_ext_iff_of_nodup distinct apart]
  intro object
  rw [List.mem_map, List.mem_flatMap]
  constructor
  · intro live
    obtain ⟨g, listed, rfl⟩ := live
    obtain ⟨live, own⟩ := List.mem_filter.mp listed
    obtain ⟨inSlab, ofClass⟩ := of_decide_eq_true own
    obtain ⟨p, member, serves⟩ := sound.served g live
    refine ⟨p, mem_classPages.mpr ⟨member, serves.slab.trans inSlab, serves.sizeClass.trans ofClass⟩, ?_⟩
    exact SlabPage.mem_used.mpr ⟨serves.slot, serves.used⟩
  · intro taken
    obtain ⟨p, own, used⟩ := taken
    obtain ⟨member, rfl, rfl⟩ := mem_classPages.mp own
    obtain ⟨slot, used⟩ := SlabPage.mem_used.mp used
    obtain ⟨g, live, rfl⟩ := sound.taken p member object slot used
    obtain ⟨q, other, serves⟩ := sound.served g live
    obtain rfl := sound.slot_page member other slot serves.slot
    exact ⟨g, List.mem_filter.mpr ⟨live, decide_eq_true ⟨serves.slab.symm, serves.sizeClass.symm⟩⟩, rfl⟩

theorem population_add_free (sound : s.Sound pages) (slab sizeClass : Nat) :
    s.population slab sizeClass + SlabUsage.vacancies (classPages pages slab sizeClass) =
      (classPages pages slab sizeClass).length * SizeClass.objects sizeClass := by
  have count := (sound.objectsOf_perm slab sizeClass).length_eq
  rw [List.length_map] at count
  rw [population, count]
  exact SlabUsage.used_add_vacancies (fun p own => sound.formatted p (mem_classPages.mp own).1)
    fun p own => (mem_classPages.mp own).2.2

theorem cache_keeps (sound : s.Sound pages) (found : s.machine.slabs[slab]? = some allocator)
    (bound : sizeClass < SizeClass.count) :
    allocator.caches[sizeClass].Keeps sizeClass (classPages pages slab sizeClass) :=
  (sound.slabs slab allocator found).caches sizeClass bound

theorem pageCount_eq (sound : s.Sound pages) (slab : Nat) (bound : sizeClass < SizeClass.count) :
    (s.machine.cacheOf slab sizeClass).pageCount = (classPages pages slab sizeClass).length := by
  cases found : s.machine.slabs[slab]? with
  | some allocator =>
      rw [cacheOf_eq found bound]
      exact (sound.cache_keeps found bound).counted
  | none =>
      have none : classPages pages slab sizeClass = [] := by
        refine List.eq_nil_iff_forall_not_mem.mpr fun p own => ?_
        obtain ⟨member, rfl, _⟩ := mem_classPages.mp own
        obtain ⟨_, here, _⟩ := sound.owned p member
        cases found.symm.trans here
      rw [cacheOf_none found, none]
      rfl

theorem population_le (sound : s.Sound pages) (slab : Nat) (bound : sizeClass < SizeClass.count) :
    s.population slab sizeClass ≤
      (s.machine.cacheOf slab sizeClass).pageCount * SizeClass.objects sizeClass := by
  have counted := sound.population_add_free slab sizeClass
  rw [sound.pageCount_eq slab bound]
  omega

theorem population_full (sound : s.Sound pages) (bound : sizeClass < SizeClass.count)
    (full : ∀ p ∈ classPages pages slab sizeClass, p.free = []) :
    s.population slab sizeClass =
      (s.machine.cacheOf slab sizeClass).pageCount * SizeClass.objects sizeClass := by
  have none : SlabUsage.vacancies (classPages pages slab sizeClass) = 0 := by
    apply List.sum_eq_zero
    intro count listed
    obtain ⟨p, own, rfl⟩ := List.mem_map.mp listed
    rw [full p own, List.length_nil]
  have counted := sound.population_add_free slab sizeClass
  rw [sound.pageCount_eq slab bound]
  omega

theorem slabUsages_eq (sound : s.Sound pages) (found : s.machine.slabs[slab]? = some allocator)
    (bound : sizeClass < SizeClass.count) :
    ∃ machine, (s.machine.slabUsages slab [sizeClass]).outcome = .ok (some [{
        objectSize := SizeClass.bytes sizeClass
        pages := (s.machine.cacheOf slab sizeClass).pageCount
        totalObjects := (s.machine.cacheOf slab sizeClass).pageCount * SizeClass.objects sizeClass
        freeObjects := (s.machine.cacheOf slab sizeClass).pageCount * SizeClass.objects sizeClass -
          s.population slab sizeClass }], machine) ∧
      s.machine.Unchanged machine := by
  obtain ⟨k, counted, alike⟩ := SlabAllocator.usage_eq (sound.slabs slab allocator found) List.filter_sublist
    sound.stocked bound
  have fold := SlabUsage.foldl_count (fun p own => (mem_classPages.mp own).2.2 :
    ∀ p ∈ classPages pages slab sizeClass, p.sizeClass = sizeClass) { objectSize := SizeClass.bytes sizeClass }
  have live := sound.population_add_free slab sizeClass
  rw [← sound.pageCount_eq slab bound] at fold live
  have free : SlabUsage.vacancies (classPages pages slab sizeClass) =
      (s.machine.cacheOf slab sizeClass).pageCount * SizeClass.objects sizeClass -
        s.population slab sizeClass := by omega
  simp only [Nat.zero_add, free] at fold
  refine ⟨{ s.machine with backing := k }, ?_, sound.unchanged alike⟩
  change (allocator.usage sizeClass s.machine.backing).outcome =
    .ok ((classPages pages slab sizeClass).foldl SlabUsage.count _, k) at counted
  rw [fold] at counted
  simp only [slabUsages, found, SlabAllocator.usages, Traced.outcome_bind, counted, ok_bind, Traced.outcome_pure]

theorem all_live (sound : s.Sound pages) (found : s.machine.slabs[slab]? = some allocator)
    (bound : sizeClass < SizeClass.count) (full : ∀ p ∈ classPages pages slab sizeClass, p.free = [])
    {page object : Nat} (linked : page ∈ linkedPages s.machine.backing.memory
      (s.machine.cacheOf slab sizeClass).pageCount (s.machine.cacheOf slab sizeClass).firstPage)
    (slot : Slot page sizeClass object) : ∃ g ∈ s.objectsOf slab sizeClass, g.addr = object := by
  rw [cacheOf_eq found bound, sound.mem_cachedPages found bound] at linked
  obtain ⟨p, member, inSlab, rfl, rfl⟩ := linked
  have own := mem_classPages.mpr ⟨member, inSlab, rfl⟩
  have used : object ∈ p.used := SlabPage.mem_used.mpr ⟨slot, by rw [full p own]; exact List.not_mem_nil⟩
  exact List.mem_map.mp ((sound.objectsOf_perm slab p.sizeClass).mem_iff.mpr
    (List.mem_flatMap.mpr ⟨p, own, used⟩))

end Sound

end Session

end ZonedMemory.Machine
