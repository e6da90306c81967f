import ZonedMemory.Proofs.Machine.Run
import ZonedMemory.Proofs.Slab.Worn

namespace ZonedMemory.Machine

/-!
Slab allocators on memory that somebody went on writing to after it was freed. Whatever is left in free
objects and in magics, a slab allocator hands out objects of intact pages of its own only. The one way to
stop it is a link so close to the end of the address space that an object there would pass it: the test
of the link adds the two up, and the sum is no word.
-/

/-- Only magics of slab pages and bytes past their headers differ. -/
structure Damaged (m : Machine) (memory : Memory) : Prop where
  translator : memory.translator = m.backing.memory.translator
  bytes : ∀ place, memory.byte place ≠ m.backing.memory.byte place → ∃ page ∈ m.slabPages,
    page ≤ place ∧ place < page + 4 ∨ page + SlabHeader.size ≤ place ∧ place < page + pageSize

/-- An object of a slab page with a valid magic stores a link to where no object would end within the
words. -/
def Overlong (m : Machine) : Prop :=
  ∃ page sizeClass object, m.Divided page sizeClass ∧
    m.backing.memory.number page 4 = SlabHeader.validMagic ∧ Slot page sizeClass object ∧
    2 ^ 64 ≤ m.backing.memory.number object 8 + SizeClass.bytes sizeClass

/-- The address is an object of a size class, in a page of its cache with a valid magic. -/
def Houses (m : Machine) (slab sizeClass addr : Nat) : Prop :=
  ∃ (allocator : SlabAllocator) (bound : sizeClass < SizeClass.count), m.slabs[slab]? = some allocator ∧
    ∃ page ∈ linkedPages m.backing.memory allocator.caches[sizeClass].pageCount
        allocator.caches[sizeClass].firstPage,
      m.backing.memory.number page 4 = SlabHeader.validMagic ∧ Slot page sizeClass addr

theorem damaged_link {m : Machine} {page sizeClass object : Nat} (divided : m.Divided page sizeClass)
    (slot : Slot page sizeClass object) (value : Nat) :
    m.Damaged (m.backing.memory.setNumber object 8 value) where
  translator := Memory.translator_setNumber
  bytes place written := by
    refine ⟨page, divided.listed, .inr ?_⟩
    have fits := slot.inside divided.small
    have word := SizeClass.word_le_bytes sizeClass
    by_contra outside
    exact written (Memory.byte_setNumber_outside (by omega))

theorem damaged_magic {m : Machine} {page : Nat} (listed : page ∈ m.slabPages) (value : Nat) :
    m.Damaged (m.backing.memory.setNumber page 4 value) where
  translator := Memory.translator_setNumber
  bytes place written := by
    refine ⟨page, listed, .inl ?_⟩
    by_contra outside
    exact written (Memory.byte_setNumber_outside (by omega))

theorem overlong_alike {m : Machine} {k : Backing} (same : k.memory = m.backing.memory)
    (overlong : Overlong { m with backing := k }) : m.Overlong := by
  obtain ⟨page, sizeClass, object, ⟨listed, small, size⟩, valid, slot, past⟩ := overlong
  simp only [slabPages, same] at listed size valid past
  exact ⟨page, sizeClass, object, ⟨listed, small, size⟩, valid, slot, past⟩

namespace Session

/-- Sessions after damage to slab pages and calls on slab allocators, in any order. -/
inductive Frays (s : Session) : Session → Prop
  | start : Frays s s
  | damage {t : Session} {memory : Memory} (frays : Frays s t) (damaged : t.machine.Damaged memory) :
      Frays s (t.withMachine (t.machine.setMemory memory))
  | allocate {t next : Session} {slab size : Nat} (frays : Frays s t)
      (performed : t.perform (.slabAllocate slab size) = .ok next) : Frays s next
  | free {t next : Session} {slab addr : Nat} (frays : Frays s t)
      (performed : t.perform (.slabFree slab addr) = .ok next) : Frays s next

/-- Whatever a slab allocator is asked for next, it answers and keeps to its own objects, or the test of
an overlong link faults. -/
structure Contained (s : Session) (slab : Nat) : Prop where
  allocate : ∀ size,
    (∃ answer machine, (s.machine.slabAllocate slab size).outcome = .ok (some answer, machine) ∧
      (size ≤ SizeClass.largest → ∀ addr, answer = .ok addr →
        machine.Houses slab (SizeClass.holding size) addr)) ∨
    (s.machine.slabAllocate slab size).outcome = .error .addOverflow ∧ s.machine.Overlong
  free : ∀ addr,
    (∃ answer machine, (s.machine.slabFree slab addr).outcome = .ok (some answer, machine)) ∨
    (s.machine.slabFree slab addr).outcome = .error .addOverflow ∧ s.machine.Overlong
  /-- An address in a page with a bad magic is refused, and nothing changes. -/
  marred : ∀ addr, s.machine.pages.Covers addr → ¬ pageSize ∣ addr →
    s.machine.backing.memory.number (addr / pageSize * pageSize) 4 ≠ SlabHeader.validMagic →
    ∃ k, (s.machine.slabFree slab addr).outcome =
        .ok (some (.error (.corrupted (addr / pageSize * pageSize))), { s.machine with backing := k }) ∧
      Backing.Alike s.machine.backing k

/-- The slab pages are known, and their headers are sound but for the magics. -/
structure Worn (s : Session) (pages : List SlabPage) : Prop extends Kept s pages where
  framed : ∀ p ∈ pages, p.Framed s.machine.backing.memory

theorem Sound.worn {s : Session} {pages : List SlabPage} (sound : s.Sound pages) : s.Worn pages :=
  ⟨sound.toKept, sound.stocked.worn.framed⟩

namespace Worn

variable {s : Session} {pages : List SlabPage} {p : SlabPage} {k : Backing} {memory : Memory}
  {allocator : SlabAllocator} {slab size addr sizeClass object : Nat}

theorem backing (worn : s.Worn pages) : s.machine.backing.Worn pages s.blocks := ⟨worn.laid, worn.framed⟩

theorem withBacking (worn : s.Worn pages) (after : k.Worn pages s.blocks)
    (kin : PageAllocator.Kin s.machine.pages k.pages) : (s.withBacking k).Worn pages :=
  ⟨worn.toKept.withBacking after.toLaid kin, after.framed⟩

theorem alike (worn : s.Worn pages) (same : Backing.Alike s.machine.backing k) :
    (s.withBacking k).Worn pages := worn.withBacking (worn.backing.alike same) same.kin

theorem withSmall (worn : s.Worn pages) (small : List SlabGrant) : Worn { s with small := small } pages :=
  ⟨⟨worn.laid, worn.slabs, worn.owned, worn.held⟩, worn.framed⟩

theorem overlong (worn : s.Worn pages) (member : p ∈ pages) (valid : p.Valid s.machine.backing.memory)
    (overlong : p.Overlong s.machine.backing.memory) : s.machine.Overlong := by
  obtain ⟨object, slot, past⟩ := overlong
  have framed := worn.framed p member
  have listed := worn.mem_slabPages.mpr ⟨p, member, rfl⟩
  exact ⟨p.addr, p.sizeClass, object, ⟨listed, framed.placed.small, framed.objectSize⟩, valid, slot, past⟩

/-- Damage leaves alone what headers say past the magic, and every page that is no slab page. -/
theorem damage (worn : s.Worn pages) (damaged : s.machine.Damaged memory) :
    (s.withMachine (s.machine.setMemory memory)).Worn pages := by
  have untouched : ∀ place, (∀ p ∈ pages, place < p.addr ∨ p.addr + pageSize ≤ place ∨
      p.addr + 4 ≤ place ∧ place < p.addr + SlabHeader.size) →
      memory.byte place = s.machine.backing.memory.byte place := by
    intro place outside
    by_contra written
    obtain ⟨page, listed, damage⟩ := damaged.bytes place written
    obtain ⟨p, member, rfl⟩ := worn.mem_slabPages.mp listed
    have := outside p member
    have : SlabHeader.size = 32 := rfl
    have : pageSize = 4096 := rfl
    omega
  -- a header is in no page but its own, so at most its magic was written to
  have framed : ∀ p ∈ pages, p.Framed memory := by
    intro p member
    refine (worn.framed p member).congr fun place lower upper => untouched place fun q other => ?_
    by_cases same : q.addr = p.addr
    · exact .inr (.inr (same ▸ ⟨lower, upper⟩))
    · have apart := Address.paged_apart (worn.laid.placed other).paged (worn.laid.placed member).paged same
      have : SlabHeader.size ≤ pageSize := by decide
      omega
  have laid : Backing.Laid { s.machine.backing with memory := memory } pages s.blocks := by
    refine ⟨worn.allocator, fun place covers => ?_, worn.laid.placed, fun member => (framed _ member).nextPage,
      fun page paged covers elsewhere => ?_⟩
    · rw [Memory.reach_congr damaged.translator]
      exact worn.laid.reached place covers
    · have same : memory.number page 4 = s.machine.backing.memory.number page 4 := by
        apply Memory.number_congr
        intro place inside
        apply untouched
        intro p member
        have apart := Address.paged_apart (worn.laid.placed member).paged paged (elsewhere p member)
        have : 4 ≤ pageSize := by decide
        omega
      rw [same]
      exact worn.laid.plain page paged covers elsewhere
  exact worn.withBacking ⟨laid, framed⟩ (.refl _)

theorem houses (worn : s.Worn pages) (member : p ∈ pages) (valid : p.Valid s.machine.backing.memory)
    (slot : Slot p.addr p.sizeClass object) : s.machine.Houses p.slab p.sizeClass object := by
  obtain ⟨allocator, found, _⟩ := worn.owned p member
  have bound := (worn.laid.placed member).small
  exact ⟨allocator, bound, found, p.addr,
    (worn.mem_cachedPages found bound).mpr ⟨p, member, rfl, rfl, rfl⟩, valid, slot⟩

theorem taken (worn : s.Worn pages) (member : p ∈ pages) (framed : p.Framed memory) (valid : p.Valid memory)
    (slot : Slot p.addr p.sizeClass object)
    (translator : memory.translator = s.machine.backing.memory.translator)
    (frame : ∀ place, ¬ p.InHeader place → memory.byte place = s.machine.backing.memory.byte place) :
    (s.withBacking { s.machine.backing with memory := memory }).Worn pages ∧
      (s.withBacking { s.machine.backing with memory := memory }).machine.Houses p.slab p.sizeClass object := by
  have outside : ∀ place, ¬ p.Covers place → memory.byte place = s.machine.backing.memory.byte place := by
    intro place away
    apply frame
    have : SlabHeader.size ≤ pageSize := by decide
    simp only [SlabPage.Covers] at away
    simp only [SlabPage.InHeader]
    omega
  have after := worn.withBacking (worn.backing.rewrite member framed translator outside) (.refl _)
  exact ⟨after, after.houses member valid slot⟩

theorem take (worn : s.Worn pages) (member : p ∈ pages)
    (offers : SlabCache.Offers s.machine.backing.memory p) (objectSize : Nat) :
    (∃ object after, (SlabAllocator.takeObject p.addr objectSize s.machine.backing).outcome =
        .ok (object, after) ∧ (s.withBacking after).Worn pages ∧
      (s.withBacking after).machine.Houses p.slab p.sizeClass object) ∨
    (SlabAllocator.takeObject p.addr objectSize s.machine.backing).outcome = .error .addOverflow ∧
      s.machine.Overlong := by
  obtain ⟨valid, some, slot⟩ := offers
  rcases (worn.framed p member).takeObject_cases (worn.laid.page_reached member) objectSize some slot with
    ⟨head, count, answer, framed⟩ | ⟨faulted, overlong⟩
  · refine .inl ⟨_, _, answer, worn.taken member framed ?_ slot SlabHeader.translator_writeFreeList ?_⟩
    · exact SlabHeader.magic_writeFreeList.trans valid
    · intro place outside
      simp only [SlabPage.InHeader] at outside
      exact SlabHeader.byte_writeFreeList (by omega)
  · exact .inr ⟨faulted, worn.overlong member valid overlong⟩

/-- A request for an object is met from an intact page of its class, or refused with nothing changed,
unless the test of an overlong link faults. -/
theorem allocateObject_cases (worn : s.Worn pages) (found : s.machine.slabs[slab]? = some allocator)
    (bound : sizeClass < SizeClass.count) :
    (∃ (object : Nat) (changed : SlabAllocator) (after : Backing) (next : List SlabPage),
      (allocator.allocateObject sizeClass s.machine.backing).outcome = .ok (.ok object, changed, after) ∧
      (s.withSlab slab changed after).Worn next ∧
      (s.machine.setSlab slab changed after).Houses slab sizeClass object) ∨
    (∃ reason after, (allocator.allocateObject sizeClass s.machine.backing).outcome =
        .ok (.error reason, allocator, after) ∧ Backing.Alike s.machine.backing after) ∨
    (allocator.allocateObject sizeClass s.machine.backing).outcome = .error .addOverflow ∧
      s.machine.Overlong := by
  have keeps := (worn.slabs slab allocator found).caches sizeClass bound
  have part : ((pages.filter fun q => q.slab = slab).filter fun q => q.sizeClass = sizeClass).Sublist
      pages := List.filter_sublist.trans List.filter_sublist
  obtain ⟨answer, walked, search, alike, result⟩ := SlabCache.walkFrom_worn worn.backing
    allocator.caches[sizeClass].objectSize (fun q listed => part.subset listed) keeps.chained
  rw [← keeps.counted] at search
  have later := worn.alike alike
  rcases result with rfl | ⟨p, listed, offers, rfl⟩
  -- no page of the class offers an object, so the object is the first one of a new page
  · have walkedWorn : walked.Worn pages s.blocks := later.backing
    rcases SlabCache.grow_laid walkedWorn.toLaid keeps part bound slab allocator.flags with
      ⟨page, cache, grown, answer, served, formatted, kept, provides, kin, translator, frame⟩ |
      ⟨reason, after, answer, again⟩
    · have joined : grown.Worn _ s.blocks := walkedWorn.join kin served formatted.framed translator frame
      have middle : Worn _ _ := ⟨later.toKept.grown (p := SlabCache.newPage slab sizeClass page _) found bound
        joined.toLaid kept provides kin, joined.framed⟩
      have whole := slots_eq_cons page bound
      obtain ⟨memory, taken, reformatted, same, header⟩ := SlabPage.takeObject_eq formatted cache.objectSize
        (joined.page_reached (List.mem_cons_self ..)) whole
      have slot := formatted.slots _ (whole ▸ List.mem_cons_self ..)
      obtain ⟨after, houses⟩ := middle.taken (List.mem_cons_self ..) reformatted.framed.of_free
        (congrArg SlabHeader.magic reformatted.header) slot same header
      refine .inl ⟨_, _, { grown with memory := memory }, _, ?_, after, houses⟩
      change (SlabAllocator.takeObject page cache.objectSize grown).outcome = _ at taken
      rw [SlabAllocator.allocateObject_grown bound search answer, taken]
      rfl
    · exact .inr (.inl ⟨.page reason, after, SlabAllocator.allocateObject_refused bound search answer,
        alike.trans again⟩)
  · obtain ⟨inSlab, ofClass⟩ := List.mem_filter.mp listed
    obtain ⟨member, own⟩ := List.mem_filter.mp inSlab
    obtain rfl := of_decide_eq_true own
    obtain rfl := of_decide_eq_true ofClass
    rw [← alike.memory] at offers
    rcases later.take member offers allocator.caches[p.sizeClass].objectSize with
      ⟨object, after, taken, worn, houses⟩ | ⟨faulted, overlong⟩
    · refine .inl ⟨object, allocator, after, pages, ?_, ?_, ?_⟩
      · change (SlabAllocator.takeObject p.addr _ walked).outcome = _ at taken
        rw [SlabAllocator.allocateObject_found bound search, taken, ok_bind]
      · rw [withSlab, setSlab_self found]
        exact worn
      · rw [setSlab_self found]
        exact houses
    · refine .inr (.inr ⟨?_, ?_⟩)
      · change (SlabAllocator.takeObject p.addr _ walked).outcome = _ at faulted
        rw [SlabAllocator.allocateObject_found bound search, faulted, error_bind]
      · exact overlong_alike alike.memory overlong

theorem slabAllocate_cases (worn : s.Worn pages) (found : s.machine.slabs[slab]? = some allocator)
    (size : Nat) :
    (∃ answer changed after next nextPages,
      (allocator.allocate size s.machine.backing).outcome = .ok (answer, changed, after) ∧
      s.perform (.slabAllocate slab size) = .ok next ∧ next.Worn nextPages ∧
      (size ≤ SizeClass.largest → ∀ addr, answer = .ok addr →
        (s.machine.setSlab slab changed after).Houses slab (SizeClass.holding size) addr)) ∨
    (allocator.allocate size s.machine.backing).outcome = .error .addOverflow ∧ s.machine.Overlong := by
  by_cases large : SizeClass.largest < size
  · have asked := allocator.allocate_large s.machine.backing large
    have beyond : ¬ size ≤ SizeClass.largest := Nat.not_le.mpr large
    rcases worn.allocateLarge_kept found size with
      ⟨start, changed, after, answer, gained, kin, memory⟩ | ⟨reason, after, answer, alike⟩
    · have performed := perform_slabAllocate_ok found (asked.trans answer)
      rw [if_neg beyond] at performed
      exact .inl ⟨.ok start, changed, after, _, pages, asked.trans answer, performed,
        ⟨gained, memory ▸ worn.framed⟩, fun small => absurd small beyond⟩
    · exact .inl ⟨.error reason, allocator, after, _, pages, asked.trans answer,
        perform_slabAllocate_error found (asked.trans answer), worn.alike alike, fun _ _ => nofun⟩
  · have small := Nat.le_of_not_lt large
    have asked := allocator.allocate_small s.machine.backing small
    rcases worn.allocateObject_cases found (SizeClass.holding_lt small) with
      ⟨object, changed, after, next, answer, gained, houses⟩ | ⟨reason, after, answer, alike⟩ |
      ⟨faulted, overlong⟩
    · have performed := perform_slabAllocate_ok found (asked.trans answer)
      rw [if_pos small] at performed
      refine .inl ⟨.ok object, changed, after, _, next, asked.trans answer, performed, gained.withSmall _,
        fun _ addr same => ?_⟩
      cases same
      exact houses
    · exact .inl ⟨.error reason, allocator, after, _, pages, asked.trans answer,
        perform_slabAllocate_error found (asked.trans answer), worn.alike alike, fun _ _ => nofun⟩
    · exact .inr ⟨asked.trans faulted, overlong⟩

theorem slabFree_cases (worn : s.Worn pages) (found : s.machine.slabs[slab]? = some allocator)
    (addr : Nat) :
    (∃ answer changed after next,
      (allocator.free addr s.machine.backing).outcome = .ok (answer, changed, after) ∧
      s.perform (.slabFree slab addr) = .ok next ∧ next.Worn pages) ∨
    (allocator.free addr s.machine.backing).outcome = .error .addOverflow ∧ s.machine.Overlong := by
  obtain ⟨k, alike, answers⟩ := allocator.free_eq worn.allocator addr
  have later := worn.alike alike
  rcases answers with ⟨_, answer⟩ | ⟨_, _, asked⟩ | ⟨covers, unpaged, asked⟩
  · exact .inl ⟨_, allocator, k, _, answer, perform_slabFree_error found answer, later⟩
  · rcases later.freeLarge_kept found addr with
      ⟨changed, after, answer, _, freed, _, memory⟩ | ⟨answer, _⟩
    · refine .inl ⟨.ok (), changed, after, _, asked.trans answer,
        perform_slabFree_ok found (asked.trans answer), ?_⟩
      exact Worn.withSmall ⟨freed, memory ▸ later.framed⟩ (s.small.filter fun g => g.addr ≠ addr)
    · exact .inl ⟨_, allocator, k, _, asked.trans answer, perform_slabFree_error found (asked.trans answer),
        later⟩
  · rcases later.backing.freeObject_cases (alike.kin.covers covers) with
      ⟨reason, answer⟩ | ⟨memory, answer, after⟩ | ⟨faulted, p, member, valid, overlong⟩
    · change (SlabAllocator.freeObject addr k).outcome = _ at answer
      rw [answer, ok_bind] at asked
      exact .inl ⟨_, allocator, k, _, asked, perform_slabFree_error found asked, later⟩
    · change (SlabAllocator.freeObject addr k).outcome = _ at answer
      rw [answer, ok_bind] at asked
      have performed := perform_slabFree_ok found asked
      rw [worn.large_filter unpaged, withSlab, setSlab_self found] at performed
      exact .inl ⟨_, allocator, _, _, asked, performed, (worn.withBacking after alike.kin).withSmall _⟩
    · change (SlabAllocator.freeObject addr k).outcome = _ at faulted
      rw [faulted, error_bind] at asked
      exact .inr ⟨asked, overlong_alike alike.memory (later.overlong member valid overlong)⟩

theorem marred (worn : s.Worn pages) (allocator : SlabAllocator) (covers : s.machine.pages.Covers addr)
    (unpaged : ¬ pageSize ∣ addr)
    (bad : s.machine.backing.memory.number (addr / pageSize * pageSize) 4 ≠ SlabHeader.validMagic) :
    ∃ k, (allocator.free addr s.machine.backing).outcome =
        .ok (.error (.corrupted (addr / pageSize * pageSize)), allocator, k) ∧
      Backing.Alike s.machine.backing k := by
  obtain ⟨k, alike, answers⟩ := allocator.free_eq worn.allocator addr
  rcases answers with ⟨uncovered, _⟩ | ⟨_, paged, _⟩ | ⟨_, _, asked⟩
  · exact absurd covers uncovered
  · exact absurd paged unpaged
  · rw [← alike.memory] at bad
    have refused := (worn.laid.alike alike).freeObject_headless (alike.kin.covers covers) rfl bad
    rw [refused, ok_bind] at asked
    exact ⟨k, asked, alike⟩

theorem contained (worn : s.Worn pages) (found : s.machine.slabs[slab]? = some allocator) :
    s.Contained slab where
  allocate size := by
    rcases worn.slabAllocate_cases found size with
      ⟨answer, changed, after, _, _, asked, _, _, houses⟩ | ⟨faulted, overlong⟩
    · refine .inl ⟨answer, s.machine.setSlab slab changed after, ?_, houses⟩
      rw [slabAllocate_eq found, asked, ok_bind]
    · refine .inr ⟨?_, overlong⟩
      rw [slabAllocate_eq found, faulted, error_bind]
  free addr := by
    rcases worn.slabFree_cases found addr with ⟨answer, changed, after, _, asked, _⟩ | ⟨faulted, overlong⟩
    · refine .inl ⟨answer, s.machine.setSlab slab changed after, ?_⟩
      rw [slabFree_eq found, asked, ok_bind]
    · refine .inr ⟨?_, overlong⟩
      rw [slabFree_eq found, faulted, error_bind]
  marred addr covers unpaged bad := by
    obtain ⟨k, refused, alike⟩ := worn.marred allocator covers unpaged bad
    refine ⟨k, ?_, alike⟩
    rw [slabFree_eq found, refused, ok_bind, setSlab_self found]

end Worn

theorem Frays.worn {s t : Session} {pages : List SlabPage} (frays : s.Frays t) (worn : s.Worn pages) :
    ∃ later, t.Worn later := by
  induction frays with
  | start => exact ⟨pages, worn⟩
  | damage frays damaged ih =>
      obtain ⟨before, worn⟩ := ih
      exact ⟨before, worn.damage damaged⟩
  | @allocate t next slab size frays performed ih =>
      obtain ⟨before, worn⟩ := ih
      cases found : t.machine.slabs[slab]? with
      | none =>
          rw [perform_slabAllocate_none found] at performed
          exact ⟨before, Except.ok.inj performed ▸ worn⟩
      | some allocator =>
          rcases worn.slabAllocate_cases found size with
            ⟨_, _, _, other, later, _, again, worn, _⟩ | ⟨faulted, _⟩
          · rw [performed] at again
            exact ⟨later, Except.ok.inj again ▸ worn⟩
          · simp [perform, slabAllocate_eq found, faulted] at performed
  | @free t next slab addr frays performed ih =>
      obtain ⟨before, worn⟩ := ih
      cases found : t.machine.slabs[slab]? with
      | none =>
          rw [perform_slabFree_none found] at performed
          exact ⟨before, Except.ok.inj performed ▸ worn⟩
      | some allocator =>
          rcases worn.slabFree_cases found addr with ⟨_, _, _, other, _, again, worn⟩ | ⟨faulted, _⟩
          · rw [performed] at again
            exact ⟨before, Except.ok.inj again ▸ worn⟩
          · simp [perform, slabFree_eq found, faulted] at performed

/-- After any run of calls that clients may make, damage to free objects and to magics is contained: a
slab allocator goes on handing out objects of its own intact pages and refuses the others, as long as no
link comes so close to the end of the address space that testing it faults. -/
theorem frays_contained {s t : Session} {allocator : SlabAllocator} {slab : Nat} (reached : Reached s)
    (frays : s.Frays t) (found : t.machine.slabs[slab]? = some allocator) : t.Contained slab := by
  obtain ⟨pages, sound⟩ := reached.sound
  obtain ⟨later, worn⟩ := frays.worn sound.worn
  exact worn.contained found

def giveBack : List Call := [.addSlab .dma, .slabAllocate 0 1024, .slabFree 0 33792]

theorem giveBack_reached : ∃ s : Session, Reached s ∧
    (s.small = [] ∧ s.machine.Divided 32768 7 ∧ ∃ allocator, s.machine.slabs[0]? = some allocator) ∧
    ((s.machine.setMemory (s.machine.backing.memory.setNumber 33792 8 (2 ^ 64 - 1))).slabAllocate
      0 1024).outcome = .error .addOverflow := by
  have computed : ((eightPagesAfter giveBack).map fun s =>
      decide ((s.small.length = 0 ∧ 0 < s.machine.slabs.length) ∧ (32768 ∈ s.machine.slabPages ∧
        (SlabHeader.standing s.machine.backing.memory 32768).objectSize = 1024) ∧
        ((s.machine.setMemory (s.machine.backing.memory.setNumber 33792 8 (2 ^ 64 - 1))).slabAllocate
          0 1024).outcome.map (fun _ => ()) = .error .addOverflow)) = some true := by
    decide +kernel
  obtain ⟨s, after, found⟩ := Option.map_eq_some_iff.mp computed
  obtain ⟨⟨unused, some⟩, ⟨listed, size⟩, faulted⟩ := of_decide_eq_true found
  refine ⟨s, eightPagesAfter_reached (fun call member t => ?_) after,
    ⟨List.eq_nil_of_length_eq_zero unused, ⟨listed, by decide, size⟩, _, List.getElem?_eq_getElem some⟩,
    map_eq_error.mp faulted⟩
  simp only [giveBack, List.mem_cons, List.not_mem_nil, or_false] at member
  rcases member with rfl | rfl | rfl <;> exact trivial

theorem frays_contained_eight : ∃ (s t : Session) (allocator : SlabAllocator),
    (Reached s ∧ s.Frays t ∧ t.machine.slabs[0]? = some allocator) ∧
    t.machine.backing.memory.number 32768 4 = 0 ∧ t.Contained 0 := by
  obtain ⟨s, reached, ⟨_, divided, allocator, found⟩, _⟩ := giveBack_reached
  have frays : s.Frays _ := .damage .start (damaged_magic divided.listed 0)
  exact ⟨s, _, allocator, ⟨reached, frays, found⟩, Memory.number_setNumber (by decide),
    frays_contained reached frays found⟩

/-- A single store to an object that is not in use can stop a slab allocator. -/
theorem overlong_unanswered : ∃ (s : Session) (object : Nat), Reached s ∧
    (∃ page sizeClass, s.machine.Divided page sizeClass ∧ Slot page sizeClass object) ∧
    (∀ g ∈ s.small, g.addr ≠ object) ∧
    ∃ t, s.Frays t ∧
      t.machine = s.machine.setMemory (s.machine.backing.memory.setNumber object 8 (2 ^ 64 - 1)) ∧
      (t.machine.slabAllocate 0 1024).outcome = .error .addOverflow := by
  obtain ⟨s, reached, ⟨unused, divided, _⟩, faulted⟩ := giveBack_reached
  have slot : Slot 32768 7 33792 := ⟨0, by decide, rfl⟩
  refine ⟨s, 33792, reached, ⟨32768, 7, divided, slot⟩, ?_, _,
    .damage .start (damaged_link divided slot (2 ^ 64 - 1)), rfl, faulted⟩
  rw [unused]
  exact nofun

end Session

end ZonedMemory.Machine
