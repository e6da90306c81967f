import ZonedMemory.Proofs.Slab.Cache

namespace ZonedMemory

/-!
Slab pages in which free objects were written to and magics overwritten. Their headers still say what
they are cut up for and where the next pages are, but the links stored in objects may be any words. A
link is tested before it is followed, and the test faults when an object there would not end within
the words; nothing else goes wrong.
-/

namespace SlabPage

/-- The header says what the page is, but for the magic, and does not lead out of the page. -/
structure Framed (m : Memory) (p : SlabPage) : Prop where
  placed : p.Placed
  objectSize : (SlabHeader.standing m p.addr).objectSize = SizeClass.bytes p.sizeClass
  totalObjects : (SlabHeader.standing m p.addr).totalObjects = SizeClass.objects p.sizeClass
  nextPage : (SlabHeader.standing m p.addr).nextPage = p.next
  freeCount : (SlabHeader.standing m p.addr).freeCount ≤ SizeClass.objects p.sizeClass
  freeList : (SlabHeader.standing m p.addr).freeList = 0 ∨
    Slot p.addr p.sizeClass (SlabHeader.standing m p.addr).freeList

def Valid (m : Memory) (p : SlabPage) : Prop :=
  (SlabHeader.standing m p.addr).magic = SlabHeader.validMagic

/-- Some object stores a link to where no object would end within the words. -/
def Overlong (m : Memory) (p : SlabPage) : Prop :=
  ∃ object, Slot p.addr p.sizeClass object ∧
    2 ^ 64 ≤ m.number object 8 + SizeClass.bytes p.sizeClass

variable {m other : Memory} {k : Backing} {p : SlabPage} {object addr head count : Nat} {free : List Nat}

theorem Formatted.framed (formatted : Formatted m p) : Framed m p := by
  have list : p.head = 0 ∨ Slot p.addr p.sizeClass p.head := by
    cases free : p.free with
    | nil => exact .inl (by rw [head, free, List.headD_nil])
    | cons first rest =>
        refine .inr (formatted.slots p.head ?_)
        rw [head, free, List.headD_cons]
        exact List.mem_cons_self ..
  have count := slots_length_le formatted.slots formatted.distinct
  refine ⟨formatted.placed, ?_, ?_, ?_, ?_, ?_⟩ <;> rw [formatted.header]
  · rfl
  · rfl
  · rfl
  · exact count
  · exact list

namespace Framed

theorem congr (framed : Framed m p)
    (same : ∀ place, p.addr + 4 ≤ place → place < p.addr + SlabHeader.size →
      other.byte place = m.byte place) : Framed other p := by
  have header := SlabHeader.standing_congr_past same
  refine ⟨framed.placed, ?_, ?_, ?_, ?_, ?_⟩ <;> rw [header]
  · exact framed.objectSize
  · exact framed.totalObjects
  · exact framed.nextPage
  · exact framed.freeCount
  · exact framed.freeList

/-- The list of free objects is put to begin with some object of the page, or with none. -/
theorem relist (framed : Framed m p) (leads : head = 0 ∨ Slot p.addr p.sizeClass head)
    (fits : count ≤ SizeClass.objects p.sizeClass) :
    Framed (SlabHeader.writeFreeList m p.addr head count) p := by
  obtain ⟨small, paged, word, next⟩ := framed.placed
  have headFits : head < 256 ^ 8 := by
    rcases leads with rfl | slot
    · decide
    · have := slot.inside small
      have := SizeClass.word_le_bytes p.sizeClass
      have := pageSize_pos
      omega
  have countFits : count < 256 ^ 4 :=
    (fits.trans_lt (SizeClass.objects_lt small)).trans (by decide)
  refine ⟨framed.placed, ?_, ?_, ?_, ?_, ?_⟩ <;> rw [SlabHeader.standing_writeFreeList headFits countFits]
  · exact framed.objectSize
  · exact framed.totalObjects
  · exact framed.nextPage
  · exact fits
  · exact leads

theorem of_free (framed : Framed m { p with free := free }) : Framed m p where
  placed := ⟨framed.placed.small, framed.placed.paged, framed.placed.word, framed.placed.next⟩
  objectSize := framed.objectSize
  totalObjects := framed.totalObjects
  nextPage := framed.nextPage
  freeCount := framed.freeCount
  freeList := framed.freeList

theorem slot_inside (framed : Framed m p) (slot : Slot p.addr p.sizeClass object) :
    p.addr + SlabHeader.size ≤ object ∧ object + 8 ≤ p.addr + pageSize := by
  have := slot.inside framed.placed.small
  have := SizeClass.word_le_bytes p.sizeClass
  omega

theorem holdsObject_eq (framed : Framed m p) (stop : addr + SizeClass.bytes p.sizeClass < 2 ^ 64) :
    ∃ answer, (SlabHeader.standing m p.addr).holdsObject p.addr addr = .ok answer ∧
      (answer = true ↔ Slot p.addr p.sizeClass addr) :=
  SlabHeader.holdsObject_eq framed.placed.small framed.objectSize framed.totalObjects framed.placed.word stop

theorem freeList_stop (framed : Framed m p) :
    (SlabHeader.standing m p.addr).freeList + SizeClass.bytes p.sizeClass < 2 ^ 64 := by
  apply framed.placed.stop_word
  have := pageSize_pos
  rcases framed.freeList with zero | slot
  · omega
  · have := framed.slot_inside slot
    omega

/-- A stored link is tested exactly, or the test faults. -/
theorem link_cases (framed : Framed m p) (slot : Slot p.addr p.sizeClass object) :
    (∃ answer, (SlabHeader.standing m p.addr).holdsObject p.addr (m.number object 8) = .ok answer ∧
      (answer = true ↔ Slot p.addr p.sizeClass (m.number object 8))) ∨
    (SlabHeader.standing m p.addr).holdsObject p.addr (m.number object 8) = .error .addOverflow ∧
      p.Overlong m := by
  by_cases stop : m.number object 8 + SizeClass.bytes p.sizeClass < 2 ^ 64
  · exact .inl (framed.holdsObject_eq stop)
  · have past := Nat.le_of_not_lt stop
    exact .inr ⟨SlabHeader.holdsObject_overflow framed.placed.small framed.objectSize framed.placed.word past,
      object, slot, past⟩

/-- Following the free list from an object on ends, or a test on the way faults. -/
theorem onFreeList_cases (framed : Framed m p)
    (reached : ∀ place, p.Covers place → m.reach place = .ok ()) (addr steps : Nat)
    (tested : (∃ answer, (SlabHeader.standing m p.addr).holdsObject p.addr object = .ok answer ∧
        (answer = true ↔ Slot p.addr p.sizeClass object)) ∨
      (SlabHeader.standing m p.addr).holdsObject p.addr object = .error .addOverflow ∧ p.Overlong m) :
    (∃ answer, SlabAllocator.onFreeList (SlabHeader.standing m p.addr) p.addr addr m steps object =
      .ok answer) ∨
    SlabAllocator.onFreeList (SlabHeader.standing m p.addr) p.addr addr m steps object =
      .error .addOverflow ∧ p.Overlong m := by
  -- what is assumed of the link in hand holds of the next one because it is stored in an object
  induction steps generalizing object with
  | zero => exact .inl ⟨false, rfl⟩
  | succ steps ih =>
      rcases tested with ⟨answer, tested, exactly⟩ | ⟨tested, overlong⟩
      · by_cases held : answer = true
        · have slot := exactly.mp held
          have inside := framed.slot_inside slot
          have next := Memory.readWord_eq (reached object ⟨by omega, by omega⟩)
          simp only [SlabAllocator.onFreeList, tested, ok_bind, if_pos held, next]
          by_cases found : object = addr
          · exact .inl ⟨true, if_pos found⟩
          · rw [if_neg found]
            exact ih (framed.link_cases slot)
        · refine .inl ⟨false, ?_⟩
          simp only [SlabAllocator.onFreeList, tested, ok_bind, if_neg held]
          rfl
      · refine .inr ⟨?_, overlong⟩
        simp only [SlabAllocator.onFreeList, tested, error_bind]

/-- Taking the first free object off a page writes to the header, unless the test of the link that it
stores faults. -/
theorem takeObject_cases (framed : Framed k.memory p)
    (reached : ∀ place, p.Covers place → k.memory.reach place = .ok ()) (objectSize : Nat)
    (some : (SlabHeader.standing k.memory p.addr).freeCount ≠ 0)
    (slot : Slot p.addr p.sizeClass (SlabHeader.standing k.memory p.addr).freeList) :
    (∃ head count, (SlabAllocator.takeObject p.addr objectSize k).outcome =
        .ok ((SlabHeader.standing k.memory p.addr).freeList,
          { k with memory := SlabHeader.writeFreeList k.memory p.addr head count }) ∧
      Framed (SlabHeader.writeFreeList k.memory p.addr head count) p) ∨
    (SlabAllocator.takeObject p.addr objectSize k).outcome = .error .addOverflow ∧ p.Overlong k.memory := by
  have inside := framed.slot_inside slot
  have next := Memory.readWord_eq
    (reached (SlabHeader.standing k.memory p.addr).freeList ⟨by omega, by omega⟩)
  have fewer : (SlabHeader.standing k.memory p.addr).freeCount - 1 ≤ SizeClass.objects p.sizeClass :=
    (Nat.sub_le ..).trans framed.freeCount
  have count := Word.sub_eq (Nat.one_le_iff_ne_zero.mpr some)
  simp only [SlabAllocator.takeObject, Traced.outcome_bind, Traced.outcome_lift, SlabPage.read_eq reached,
    ok_bind, next]
  -- the link ends the list, leads to another object, or is given up with the rest of the list
  by_cases last : k.memory.number (SlabHeader.standing k.memory p.addr).freeList 8 = 0
  · refine .inl ⟨_, _, ?_, framed.relist (.inl last) fewer⟩
    simp only [if_pos last, Traced.outcome_bind, Traced.outcome_pure, Traced.outcome_lift,
      Traced.outcome_report, count, ok_bind, if_true]
  rw [if_neg last]
  rcases framed.link_cases slot with ⟨answer, tested, exactly⟩ | ⟨tested, overlong⟩
  · by_cases held : answer = true
    · refine .inl ⟨_, _, ?_, framed.relist (.inr (exactly.mp held)) fewer⟩
      simp only [tested, if_pos held, Traced.outcome_bind, Traced.outcome_pure, Traced.outcome_lift,
        Traced.outcome_report, count, ok_bind]
    · refine .inl ⟨0, 0, ?_, framed.relist (.inl rfl) (Nat.zero_le _)⟩
      simp only [tested, if_neg held, Traced.outcome_bind, Traced.outcome_pure, Traced.outcome_lift,
        Traced.outcome_report, ok_bind]
  · refine .inr ⟨?_, overlong⟩
    simp only [tested, Traced.outcome_bind, Traced.outcome_lift, error_bind]

theorem give (framed : Framed m p) (slot : Slot p.addr p.sizeClass addr) (value : Nat)
    (room : (SlabHeader.standing m p.addr).freeCount < SizeClass.objects p.sizeClass) :
    Framed (SlabHeader.writeFreeList (m.setNumber addr 8 value) p.addr addr
      ((SlabHeader.standing m p.addr).freeCount + 1)) p := by
  have inside := framed.slot_inside slot
  have stored : Framed (m.setNumber addr 8 value) p :=
    framed.congr fun place lower upper => Memory.byte_setNumber_outside (.inl (by omega))
  exact stored.relist (.inr slot) room

/-- Freeing an address in a page with a valid magic puts it on the free list or changes nothing, unless
a test on the way along the list faults. -/
theorem freeObject_cases (framed : Framed k.memory p)
    (reached : ∀ place, p.Covers place → k.memory.reach place = .ok ())
    (aligned : Address.alignDown addr pageSize = .ok p.addr) (covers : p.Covers addr)
    (valid : p.Valid k.memory) :
    (∃ reason, (SlabAllocator.freeObject addr k).outcome = .ok (.error reason, k)) ∨
    (∃ memory, (SlabAllocator.freeObject addr k).outcome = .ok (.ok (), { k with memory := memory }) ∧
      Framed memory p ∧ memory.translator = k.memory.translator ∧
      ∀ place, ¬ p.Covers place → memory.byte place = k.memory.byte place) ∨
    (SlabAllocator.freeObject addr k).outcome = .error .addOverflow ∧ p.Overlong k.memory := by
  obtain ⟨answer, tested, exactly⟩ := framed.holdsObject_eq (framed.placed.stop_word covers.2)
  simp only [SlabAllocator.freeObject, Traced.outcome_bind, Traced.outcome_lift, aligned, ok_bind,
    SlabPage.read_eq reached, SlabAllocator.objectSizeOf_valid valid framed.placed.small framed.objectSize,
    tested, Traced.outcome_ite]
  by_cases held : answer = true
  · have slot := exactly.mp held
    have inside := framed.slot_inside slot
    have write := Memory.writeWord_eq (SlabHeader.standing k.memory p.addr).freeList
      (reached addr ⟨by omega, by omega⟩)
    rw [if_pos held]
    by_cases full : (SlabHeader.standing k.memory p.addr).totalObjects ≤
        (SlabHeader.standing k.memory p.addr).freeCount
    · refine .inl ⟨.notAllocated, ?_⟩
      simp only [if_pos full, Traced.outcome_pure, Traced.outcome_report, ok_bind, if_true]
    · rw [if_neg full]
      have start := framed.holdsObject_eq framed.freeList_stop
      rcases framed.onFreeList_cases reached addr
          (SlabHeader.standing k.memory p.addr).freeCount (.inl start) with
        ⟨unused, followed⟩ | ⟨followed, overlong⟩
      · by_cases free : unused = true
        · refine .inl ⟨.notAllocated, ?_⟩
          simp only [followed, if_pos free, ok_bind, Traced.outcome_report, Traced.outcome_pure]
        · have room := Nat.lt_of_not_le full
          rw [framed.totalObjects] at room
          refine .inr (.inl ⟨_, ?_, framed.give slot (SlabHeader.standing k.memory p.addr).freeList room, ?_,
            fun place away => ?_⟩)
          · simp only [followed, if_neg free, ok_bind, write, Traced.outcome_report, Traced.outcome_pure]
          · rw [SlabHeader.translator_writeFreeList, Memory.translator_setNumber]
          · have least : SlabHeader.size ≤ pageSize := by decide
            simp only [SlabPage.Covers] at away
            rw [SlabHeader.byte_writeFreeList (by omega), Memory.byte_setNumber_outside (by omega)]
      · exact .inr (.inr ⟨by simp only [followed, error_bind], overlong⟩)
  · refine .inl ⟨.notSlabObject, ?_⟩
    simp only [if_neg held, Traced.outcome_report, Traced.outcome_pure, ok_bind]

end Framed

end SlabPage

namespace Backing

/-- The slab pages are where they were, and their headers are sound but for the magics. -/
structure Worn (k : Backing) (pages : List SlabPage) (others : List Block) : Prop
    extends Laid k pages others where
  framed : ∀ p ∈ pages, p.Framed k.memory

namespace Worn

variable {k after : Backing} {pages : List SlabPage} {others : List Block} {p : SlabPage}
  {memory : Memory} {addr : Nat}

theorem alike (worn : k.Worn pages others) (same : Alike k after) : after.Worn pages others :=
  ⟨worn.toLaid.alike same, same.memory ▸ worn.framed⟩

theorem rewrite (worn : k.Worn pages others) (member : p ∈ pages) (framed : p.Framed memory)
    (translator : memory.translator = k.memory.translator)
    (frame : ∀ place, ¬ p.Covers place → memory.byte place = k.memory.byte place) :
    Worn { k with memory := memory } pages others := by
  have paged := (worn.placed member).paged
  have outside := p.outside_page frame
  have kept : ∀ q ∈ pages, q.Framed memory := by
    intro q listed
    by_cases same : q.addr = p.addr
    · rwa [worn.eq_of_addr listed member same]
    · refine (worn.framed q listed).congr fun place lower upper => ?_
      have least : SlabHeader.size ≤ pageSize := by decide
      exact worn.untouched listed paged same outside place ⟨by omega, by omega⟩
  exact ⟨worn.overwrite paged (.refl _) worn.allocator (fun q listed => (kept q listed).placed)
    (fun q listed => (kept q listed).nextPage) ⟨p, member, rfl⟩ (fun q listed => ⟨q, listed, rfl⟩)
    translator outside, kept⟩

theorem join {allocator : PageAllocator} (worn : k.Worn pages others)
    (kin : PageAllocator.Kin k.pages allocator)
    (sound : allocator.Sound (p.block :: (pages.map SlabPage.block ++ others)))
    (framed : p.Framed memory) (translator : memory.translator = k.memory.translator)
    (frame : ∀ place, ¬ p.Covers place → memory.byte place = k.memory.byte place) :
    Worn ⟨allocator, memory⟩ (p :: pages) others := by
  refine ⟨worn.toLaid.join kin sound framed.placed framed.nextPage translator frame, ?_⟩
  refine List.forall_mem_cons.mpr ⟨framed, fun q before => (worn.framed q before).congr ?_⟩
  intro place lower upper
  have least : SlabHeader.size ≤ pageSize := by decide
  exact worn.untouched before framed.placed.paged (worn.joined_ne sound before) (p.outside_page frame) place
    ⟨by omega, by omega⟩

/-- Freeing an address past a page start writes to the slab page around it or changes nothing, unless a
test of a link faults. -/
theorem freeObject_cases (worn : k.Worn pages others) (covers : k.pages.Covers addr) :
    (∃ reason, (SlabAllocator.freeObject addr k).outcome = .ok (.error reason, k)) ∨
    (∃ memory, (SlabAllocator.freeObject addr k).outcome = .ok (.ok (), { k with memory := memory }) ∧
      Worn { k with memory := memory } pages others) ∨
    (SlabAllocator.freeObject addr k).outcome = .error .addOverflow ∧
      ∃ p ∈ pages, p.Valid k.memory ∧ p.Overlong k.memory := by
  by_cases kept : ∃ p ∈ pages, p.addr = addr / pageSize * pageSize
  · obtain ⟨p, member, start⟩ := kept
    by_cases valid : p.Valid k.memory
    · have inside : p.Covers addr := by
        have whole := Nat.div_add_mod' addr pageSize
        have short := Nat.mod_lt addr pageSize_pos
        exact ⟨by omega, by omega⟩
      rcases (worn.framed p member).freeObject_cases (worn.page_reached member)
          (worn.page_word covers start.symm).1 inside valid with
        refused | ⟨memory, freed, framed, translator, frame⟩ | ⟨faulted, overlong⟩
      · exact .inl refused
      · exact .inr (.inl ⟨memory, freed, worn.rewrite member framed translator frame⟩)
      · exact .inr (.inr ⟨faulted, p, member, valid, overlong⟩)
    · exact .inl ⟨_, worn.freeObject_headless covers start.symm valid⟩
  · push Not at kept
    exact .inl ⟨_, worn.freeObject_headless covers rfl (worn.plain_magic covers kept)⟩

end Worn

theorem Stocked.worn {k : Backing} {pages : List SlabPage} {others : List Block}
    (stocked : k.Stocked pages others) : k.Worn pages others :=
  ⟨stocked.toLaid, fun p member => (stocked.formatted p member).framed⟩

end Backing

namespace SlabCache

variable {k : Backing} {pages chain : List SlabPage} {others : List Block} {p : SlabPage}
  {c : SlabCache} {link : Nat}

structure Offers (m : Memory) (p : SlabPage) : Prop where
  valid : p.Valid m
  some : (SlabHeader.standing m p.addr).freeCount ≠ 0
  slot : Slot p.addr p.sizeClass (SlabHeader.standing m p.addr).freeList

theorem visitForSpace_worn (framed : p.Framed k.memory) (valid : p.Valid k.memory) :
    (visitForSpace none p.addr (SlabHeader.standing k.memory p.addr)).outcome = .ok (none, false) ∨
    (visitForSpace none p.addr (SlabHeader.standing k.memory p.addr)).outcome = .ok (some p.addr, true) ∧
      Offers k.memory p := by
  by_cases empty : (SlabHeader.standing k.memory p.addr).freeCount = 0
  · refine .inl ?_
    simp only [visitForSpace, if_pos empty, Traced.outcome_pure]
  · obtain ⟨answer, tested, exactly⟩ := framed.holdsObject_eq framed.freeList_stop
    simp only [visitForSpace, if_neg empty, Traced.outcome_bind, Traced.outcome_lift, tested, ok_bind]
    by_cases held : answer = true
    · exact .inr ⟨by simp only [if_pos held, Traced.outcome_pure], valid, empty, exactly.mp held⟩
    · refine .inl ?_
      simp only [if_neg held, Traced.outcome_bind, Traced.outcome_report, ok_bind, Traced.outcome_pure]

/-- A walk ends without a fault, at a page that offers an object if at any. -/
theorem walkFrom_worn (worn : k.Worn pages others) (objectSize : Nat) (members : ∀ p ∈ chain, p ∈ pages)
    (chained : Chained link chain) :
    ∃ answer after, (walkFrom objectSize visitForSpace chain.length link none k).outcome =
        .ok (answer, after) ∧ Backing.Alike k after ∧
      (answer = none ∨ ∃ p ∈ chain, Offers k.memory p ∧ answer = some p.addr) := by
  induction chain generalizing link k with
  | nil => exact ⟨none, k, rfl, .refl k, .inl rfl⟩
  | cons p rest ih =>
      obtain ⟨rfl, chained⟩ := chained
      have member := members p (List.mem_cons_self ..)
      obtain ⟨next, alike, entered⟩ := walkFrom_cons worn.toLaid member visitForSpace none
        objectSize rest.length
      obtain ⟨answer, last, walked, later, result⟩ :=
        ih (worn.alike alike) (fun q listed => members q (List.mem_cons_of_mem _ listed)) chained
      rw [alike.memory] at result
      -- where this page is passed over, the answer is that of the pages after it
      have passed : answer = none ∨ ∃ q ∈ p :: rest, Offers k.memory q ∧ answer = some q.addr := by
        refine result.imp_right fun offered => ?_
        obtain ⟨q, listed, offers, found⟩ := offered
        exact ⟨q, List.mem_cons_of_mem _ listed, offers, found⟩
      by_cases valid : (SlabHeader.standing k.memory p.addr).magic = SlabHeader.validMagic
      · rw [if_pos valid] at entered
        rcases visitForSpace_worn (worn.framed p member) valid with visited | ⟨visited, offers⟩
        · rw [visited, ok_bind] at entered
          exact ⟨answer, last, entered.trans walked, alike.trans later, passed⟩
        · rw [visited, ok_bind] at entered
          exact ⟨some p.addr, next, entered, alike, .inr ⟨p, List.mem_cons_self .., offers, rfl⟩⟩
      · rw [if_neg valid] at entered
        exact ⟨answer, last, entered.trans walked, alike.trans later, passed⟩

end SlabCache

end ZonedMemory
