import Mathlib.Data.List.Perm.Subperm
import ZonedMemory.Proofs.Memory
import ZonedMemory.Proofs.Slab.SizeClass
import ZonedMemory.Slab.Allocator

namespace ZonedMemory

/-!
One slab page. Its allocator keeps track of it in the bytes of the header and in the first words of
the free objects; the rest of the page belongs to clients. As long as nobody else writes to those
bytes, the page reads as it was left.
-/

namespace SlabHeader

/-- What the bytes at the start of a page say. -/
def standing (m : Memory) (page : Nat) : SlabHeader where
  magic := m.number page 4
  objectSize := m.number (page + 4) 4
  totalObjects := m.number (page + 8) 4
  freeCount := m.number (page + 12) 4
  nextPage := m.number (page + 16) 8
  freeList := m.number (page + 24) 8

structure Fits (header : SlabHeader) : Prop where
  magic : header.magic < 256 ^ 4
  objectSize : header.objectSize < 256 ^ 4
  totalObjects : header.totalObjects < 256 ^ 4
  freeCount : header.freeCount < 256 ^ 4
  nextPage : header.nextPage < 256 ^ 8
  freeList : header.freeList < 256 ^ 8

variable {m other : Memory} {page head count place : Nat} {header : SlabHeader}

theorem read_eq (reached : m.reach page = .ok ()) : read m page = .ok (standing m page) := by
  rw [read, reached]
  rfl

/-- The magic is the first field; the others are those of the bytes after it. -/
theorem standing_congr_past
    (same : ∀ place, page + 4 ≤ place → place < page + size → other.byte place = m.byte place) :
    standing other page = { standing m page with magic := other.number page 4 } := by
  have field : ∀ start width : Nat, page + 4 ≤ start → start + width ≤ page + 32 →
      other.number start width = m.number start width := by
    intro start width lower upper
    apply Memory.number_congr
    intro place inside
    exact same (start + place) (by omega) (by simp only [size]; omega)
  simp only [standing, field (page + 4) 4 (by omega) (by omega), field (page + 8) 4 (by omega) (by omega),
    field (page + 12) 4 (by omega) (by omega), field (page + 16) 8 (by omega) (by omega),
    field (page + 24) 8 (by omega) (by omega)]

theorem standing_congr
    (same : ∀ place, page ≤ place → place < page + size → other.byte place = m.byte place) :
    standing other page = standing m page := by
  have magic : other.number page 4 = m.number page 4 := by
    apply Memory.number_congr
    intro place inside
    exact same (page + place) (by omega) (by simp only [size]; omega)
  rw [standing_congr_past fun place lower upper => same place (by omega) upper, magic]
  rfl

theorem write_eq (header : SlabHeader) (reached : m.reach page = .ok ()) (fits : header.Fits) :
    ∃ after, write m page header = .ok after ∧ standing after page = header ∧
      after.translator = m.translator ∧
      ∀ place, place < page ∨ page + size ≤ place → after.byte place = m.byte place := by
  refine ⟨_, by rw [write, reached]; rfl, ?_, ?_, ?_⟩
  · obtain ⟨magic, objectSize, totalObjects, freeCount, nextPage, freeList⟩ := fits
    simp (disch := omega) only [standing, Memory.number_setNumber_outside, Memory.number_setNumber]
  · simp only [Memory.translator_setNumber]
  · intro place outside
    simp only [size] at outside
    simp (disch := omega) only [Memory.byte_setNumber_outside]

theorem standing_writeFreeList (headFits : head < 256 ^ 8) (countFits : count < 256 ^ 4) :
    standing (writeFreeList m page head count) page =
      { standing m page with freeList := head, freeCount := count } := by
  simp (disch := omega) only [standing, writeFreeList, Memory.number_setNumber_outside,
    Memory.number_setNumber]

theorem magic_writeFreeList : (standing (writeFreeList m page head count) page).magic = (standing m page).magic := by
  simp (disch := omega) only [standing, writeFreeList, Memory.number_setNumber_outside]

theorem byte_writeFreeList (outside : place < page ∨ page + size ≤ place) :
    (writeFreeList m page head count).byte place = m.byte place := by
  simp only [size] at outside
  simp (disch := omega) only [writeFreeList, Memory.byte_setNumber_outside]

theorem translator_writeFreeList : (writeFreeList m page head count).translator = m.translator := by
  simp only [writeFreeList, Memory.translator_setNumber]

end SlabHeader

theorem SlabAllocator.objectSizeOf_valid {header : SlabHeader} {page addr index : Nat}
    (magic : header.magic = SlabHeader.validMagic) (small : index < SizeClass.count)
    (size : header.objectSize = SizeClass.bytes index) :
    (objectSizeOf page addr header).outcome = .ok (.ok (SizeClass.bytes index)) := by
  have known := SizeClass.ofSize_eq (SizeClass.bytes_le small)
  rw [SizeClass.holding_bytes] at known
  rw [objectSizeOf, if_pos magic, size]
  simp only [Traced.outcome_bind, Traced.outcome_lift, known, SizeClass.objectSize_eq small, ok_bind,
    Traced.outcome_pure, decide_true, if_true]

theorem SlabAllocator.objectSizeOf_invalid {header : SlabHeader} {page addr : Nat}
    (invalid : ¬ (header.magic = SlabHeader.validMagic ∧
      ∃ index < SizeClass.count, header.objectSize = SizeClass.bytes index)) :
    (objectSizeOf page addr header).outcome = .ok (.error (.corrupted page)) := by
  unfold objectSizeOf
  by_cases magic : header.magic = SlabHeader.validMagic
  · have other : ∀ index < SizeClass.count, header.objectSize ≠ SizeClass.bytes index :=
      fun index small size => invalid ⟨magic, index, small, size⟩
    rw [if_pos magic]
    by_cases large : SizeClass.largest < header.objectSize
    · have refused : SizeClass.ofSize header.objectSize = .ok (.error (.tooLarge header.objectSize)) :=
        if_pos large
      simp only [Traced.outcome_bind, Traced.outcome_lift, refused, ok_bind, Traced.outcome_pure,
        Bool.false_eq_true, if_false, Traced.outcome_report]
    · have fits := Nat.le_of_not_lt large
      have bound := SizeClass.holding_lt fits
      simp only [Traced.outcome_bind, Traced.outcome_lift, SizeClass.ofSize_eq fits,
        SizeClass.objectSize_eq bound, ok_bind, Traced.outcome_pure,
        decide_eq_false (other _ bound).symm, Bool.false_eq_true, if_false, Traced.outcome_report]
  · rw [if_neg magic]
    rfl

/-- A slab page as its allocator left it. -/
structure SlabPage where
  slab : Nat
  sizeClass : Nat
  addr : Nat
  /-- The next page of the same cache, or `SlabHeader.noPage`. -/
  next : Nat
  /-- The free objects, in the order of the free list. -/
  free : List Nat

namespace SlabPage

def head (p : SlabPage) : Nat := p.free.headD 0

def header (p : SlabPage) : SlabHeader where
  magic := SlabHeader.validMagic
  objectSize := SizeClass.bytes p.sizeClass
  totalObjects := SizeClass.objects p.sizeClass
  freeCount := p.free.length
  nextPage := p.next
  freeList := p.head

def Covers (p : SlabPage) (place : Nat) : Prop := p.addr ≤ place ∧ place < p.addr + pageSize

def InHeader (p : SlabPage) (place : Nat) : Prop := p.addr ≤ place ∧ place < p.addr + SlabHeader.size

/-- The bytes that only the allocator may write to. -/
def Manages (p : SlabPage) (place : Nat) : Prop :=
  p.InHeader place ∨ ∃ object ∈ p.free, object ≤ place ∧ place < object + 8

/-- Each object of a list links to the next one, the last one to zero. -/
def Linked (m : Memory) : (object : Nat) → List Nat → Prop
  | object, [] => object = 0
  | object, first :: rest => object = first ∧ Linked m (m.number first 8) rest

structure Placed (p : SlabPage) : Prop where
  small : p.sizeClass < SizeClass.count
  paged : pageSize ∣ p.addr
  word : p.addr + 2 * pageSize ≤ 2 ^ 64
  next : p.next < 2 ^ 64

structure Formatted (m : Memory) (p : SlabPage) : Prop where
  placed : p.Placed
  header : SlabHeader.standing m p.addr = p.header
  linked : Linked m p.head p.free
  slots : ∀ object ∈ p.free, Slot p.addr p.sizeClass object
  distinct : p.free.Nodup

variable {m other : Memory} {p : SlabPage} {object place addr : Nat} {free rest : List Nat}

theorem Placed.ne_noPage (placed : p.Placed) : p.addr ≠ SlabHeader.noPage := by
  have := placed.word
  have : 1 < pageSize := by decide
  simp only [SlabHeader.noPage]
  omega

/-- No object that starts in the page or below it passes the end of the address space. -/
theorem Placed.stop_word (placed : p.Placed) (below : addr < p.addr + pageSize) :
    addr + SizeClass.bytes p.sizeClass < 2 ^ 64 := by
  have := placed.word
  have := SizeClass.bytes_le placed.small
  have : SizeClass.largest < pageSize := by decide
  omega

theorem outside_page (p : SlabPage) (frame : ∀ place, ¬ p.Covers place → other.byte place = m.byte place)
    (place : Nat) (outside : place < p.addr ∨ p.addr + pageSize ≤ place) :
    other.byte place = m.byte place := by
  apply frame
  simp only [Covers]
  omega

theorem standing_congr (same : ∀ place, p.Covers place → other.byte place = m.byte place) :
    SlabHeader.standing other p.addr = SlabHeader.standing m p.addr := by
  apply SlabHeader.standing_congr
  intro place lower upper
  have : SlabHeader.size ≤ pageSize := by decide
  exact same place ⟨lower, by omega⟩

theorem read_eq (reached : ∀ place, p.Covers place → m.reach place = .ok ()) :
    SlabHeader.read m p.addr = .ok (SlabHeader.standing m p.addr) :=
  SlabHeader.read_eq (reached p.addr ⟨Nat.le_refl _, Nat.lt_add_of_pos_right pageSize_pos⟩)

theorem Linked.congr (linked : Linked m object free)
    (same : ∀ first ∈ free, ∀ place, first ≤ place → place < first + 8 →
      other.byte place = m.byte place) : Linked other object free := by
  induction free generalizing object with
  | nil => exact linked
  | cons first rest ih =>
      have word : other.number first 8 = m.number first 8 := by
        apply Memory.number_congr
        intro place inside
        exact same first (List.mem_cons_self ..) (first + place) (by omega) (by omega)
      refine ⟨linked.1, ?_⟩
      rw [word]
      exact ih linked.2 fun later member => same later (List.mem_cons_of_mem _ member)

theorem Linked.head_eq (linked : Linked m object free) : object = free.headD 0 := by
  cases free with
  | nil => exact linked
  | cons first rest => exact linked.1

theorem slots_length_le {page index : Nat} (slots : ∀ object ∈ free, Slot page index object)
    (distinct : free.Nodup) : free.length ≤ SizeClass.objects index := by
  have count := (distinct.subperm fun object member => mem_slots.mpr (slots object member)).length_le
  rwa [slots_length] at count

namespace Formatted

theorem slot_covered (formatted : Formatted m p) (slot : Slot p.addr p.sizeClass object) :
    p.addr + SlabHeader.size ≤ object ∧ object + 8 ≤ p.addr + pageSize := by
  have := slot.inside formatted.placed.small
  have := SizeClass.word_le_bytes p.sizeClass
  omega

theorem manages_covers (formatted : Formatted m p) (manages : p.Manages place) : p.Covers place := by
  rcases manages with header | ⟨object, member, lower, upper⟩
  · have : SlabHeader.size ≤ pageSize := by decide
    exact ⟨header.1, by have := header.2; omega⟩
  · have := formatted.slot_covered (formatted.slots object member)
    exact ⟨by omega, by omega⟩

theorem congr (formatted : Formatted m p)
    (same : ∀ place, p.Manages place → other.byte place = m.byte place) : Formatted other p where
  placed := formatted.placed
  header := by
    rw [← formatted.header]
    exact SlabHeader.standing_congr fun place lower upper => same place (.inl ⟨lower, upper⟩)
  linked := formatted.linked.congr fun object member place lower upper =>
    same place (.inr ⟨object, member, lower, upper⟩)
  slots := formatted.slots
  distinct := formatted.distinct

theorem nextPage_eq (formatted : Formatted m p) : (SlabHeader.standing m p.addr).nextPage = p.next := by
  rw [formatted.header]
  rfl

theorem head_word (formatted : Formatted m p) (slots : ∀ object ∈ free, Slot p.addr p.sizeClass object) :
    free.headD 0 < 256 ^ 8 := Slot.head_word slots formatted.placed.small formatted.placed.word

theorem read_eq (formatted : Formatted m p) (reached : ∀ place, p.Covers place → m.reach place = .ok ()) :
    SlabHeader.read m p.addr = .ok p.header := by
  rw [SlabPage.read_eq reached, formatted.header]

theorem holdsObject_eq (formatted : Formatted m p) (below : addr < p.addr + pageSize) :
    ∃ answer, p.header.holdsObject p.addr addr = .ok answer ∧
      (answer = true ↔ Slot p.addr p.sizeClass addr) :=
  SlabHeader.holdsObject_eq formatted.placed.small rfl rfl formatted.placed.word
    (formatted.placed.stop_word below)

theorem holdsObject_slot (formatted : Formatted m p) (slot : Slot p.addr p.sizeClass object) :
    p.header.holdsObject p.addr object = .ok true := by
  have inside := formatted.slot_covered slot
  obtain ⟨answer, computed, exactly⟩ := formatted.holdsObject_eq (show object < p.addr + pageSize by omega)
  rw [computed, exactly.mpr slot]

/-- Following the free list finds an object just when it is free. -/
theorem onFreeList_eq (formatted : Formatted m p)
    (reached : ∀ place, p.Covers place → m.reach place = .ok ()) (linked : Linked m object free)
    (slots : ∀ first ∈ free, Slot p.addr p.sizeClass first) :
    SlabAllocator.onFreeList p.header p.addr addr m free.length object = .ok (decide (addr ∈ free)) := by
  induction free generalizing object with
  | nil => simp [SlabAllocator.onFreeList]
  | cons first rest ih =>
      obtain ⟨rfl, linked⟩ := linked
      have slot := slots object (List.mem_cons_self ..)
      have inside := formatted.slot_covered slot
      simp only [List.length_cons, SlabAllocator.onFreeList, formatted.holdsObject_slot slot, ok_bind,
        if_true]
      by_cases found : object = addr
      · simp [found]
      · have next := Memory.readWord_eq (reached object ⟨by omega, by omega⟩)
        rw [if_neg found, next, ok_bind,
          ih linked fun later member => slots later (List.mem_cons_of_mem _ member)]
        simp [Ne.symm found]

theorem unused_eq (formatted : Formatted m p)
    (reached : ∀ place, p.Covers place → m.reach place = .ok ()) (slot : Slot p.addr p.sizeClass addr) :
    (if p.header.totalObjects ≤ p.header.freeCount then pure true
      else SlabAllocator.onFreeList p.header p.addr addr m p.header.freeCount p.header.freeList :
      Except Fault Bool) = .ok (decide (addr ∈ p.free)) := by
  by_cases full : p.header.totalObjects ≤ p.header.freeCount
  · have member : addr ∈ p.free := by
      by_contra absent
      have slots : ∀ object ∈ addr :: p.free, Slot p.addr p.sizeClass object := by
        intro object listed
        rcases List.mem_cons.mp listed with rfl | listed
        · exact slot
        · exact formatted.slots object listed
      have more := slots_length_le slots (List.nodup_cons.mpr ⟨absent, formatted.distinct⟩)
      exact absurd more (Nat.not_le.mpr (Nat.lt_succ_of_le full))
    rw [if_pos full, decide_eq_true member]
    rfl
  · rw [if_neg full]
    exact formatted.onFreeList_eq reached formatted.linked formatted.slots

theorem objectSizeOf_eq (formatted : Formatted m p) :
    (SlabAllocator.objectSizeOf p.addr addr p.header).outcome =
      .ok (.ok (SizeClass.bytes p.sizeClass)) :=
  SlabAllocator.objectSizeOf_valid rfl formatted.placed.small rfl

/-- The page after its list was set to begin with `head` and to have `free` on it. -/
theorem relisted (formatted : Formatted m p) {after : Memory} (free : List Nat)
    (header : SlabHeader.standing after p.addr = SlabHeader.standing m p.addr)
    (linked : Linked after (free.headD 0) free)
    (slots : ∀ object ∈ free, Slot p.addr p.sizeClass object) (distinct : free.Nodup) :
    Formatted (SlabHeader.writeFreeList after p.addr (free.headD 0) free.length)
      { p with free := free } := by
  have count := (slots_length_le slots distinct).trans_lt (SizeClass.objects_lt formatted.placed.small)
  have countFits : free.length < 256 ^ 4 := count.trans (by decide)
  refine ⟨⟨formatted.placed.small, formatted.placed.paged, formatted.placed.word,
    formatted.placed.next⟩, ?_, ?_, slots, distinct⟩
  · change SlabHeader.standing _ p.addr = _
    rw [SlabHeader.standing_writeFreeList (formatted.head_word slots) countFits, header, formatted.header]
    rfl
  · refine linked.congr fun first member place lower upper => ?_
    have inside := formatted.slot_covered (slots first member)
    exact SlabHeader.byte_writeFreeList (.inr (by omega))

end Formatted

/-- Taking an object off a page changes nothing but the header. -/
theorem takeObject_eq {k : Backing} (formatted : Formatted k.memory p) (objectSize : Nat)
    (reached : ∀ place, p.Covers place → k.memory.reach place = .ok ()) (some : p.free = object :: rest) :
    ∃ after, (SlabAllocator.takeObject p.addr objectSize k).outcome =
        .ok (object, { k with memory := after }) ∧
      Formatted after { p with free := rest } ∧ after.translator = k.memory.translator ∧
      ∀ place, ¬ p.InHeader place → after.byte place = k.memory.byte place := by
  have slots := formatted.slots
  have distinct := formatted.distinct
  have linked := formatted.linked
  rw [some] at slots distinct linked
  have inside := formatted.slot_covered (slots object (List.mem_cons_self ..))
  have restSlots : ∀ other ∈ rest, Slot p.addr p.sizeClass other := fun other member =>
    slots other (List.mem_cons_of_mem _ member)
  have next := Memory.readWord_eq (reached object ⟨by omega, by omega⟩)
  rw [linked.2.head_eq] at next
  have intact : (if rest.headD 0 = 0 then pure true else p.header.holdsObject p.addr (rest.headD 0) :
      Except Fault Bool) = .ok true := by
    cases rest with
    | nil => rfl
    | cons first others =>
        rw [List.headD_cons, formatted.holdsObject_slot (restSlots first (List.mem_cons_self ..))]
        split <;> rfl
  have head : p.header.freeList = object := by
    rw [header, SlabPage.head, some]
    rfl
  have count : Word.sub p.header.freeCount 1 = .ok rest.length := by
    rw [header, some]
    exact Word.sub_eq (Nat.succ_le_succ (Nat.zero_le _))
  have relinked : Linked k.memory (rest.headD 0) rest := linked.2.head_eq ▸ linked.2
  refine ⟨_, ?_, formatted.relisted rest rfl relinked restSlots (List.nodup_cons.mp distinct).2,
    SlabHeader.translator_writeFreeList, fun place outside => SlabHeader.byte_writeFreeList ?_⟩
  · simp only [SlabAllocator.takeObject, Traced.outcome_bind, Traced.outcome_lift,
      formatted.read_eq reached, ok_bind, head, next]
    by_cases last : rest.headD 0 = 0
    · rw [if_pos last]
      simp only [Traced.outcome_bind, Traced.outcome_pure, Traced.outcome_lift, Traced.outcome_report,
        count, ok_bind, if_true]
    · rw [if_neg last] at intact ⊢
      simp only [Traced.outcome_bind, Traced.outcome_pure, Traced.outcome_lift, Traced.outcome_report,
        intact, count, ok_bind, if_true]
  · simp only [InHeader] at outside
    omega

/-- Giving an object back changes nothing but its first word and the header. -/
theorem Formatted.give (formatted : Formatted m p) (slot : Slot p.addr p.sizeClass object)
    (used : object ∉ p.free) :
    Formatted (SlabHeader.writeFreeList (m.setNumber object 8 p.head) p.addr object (p.free.length + 1))
      { p with free := object :: p.free } := by
  have inside := formatted.slot_covered slot
  have slots : ∀ other ∈ object :: p.free, Slot p.addr p.sizeClass other := by
    intro other member
    rcases List.mem_cons.mp member with rfl | member
    · exact slot
    · exact formatted.slots other member
  apply formatted.relisted (object :: p.free)
  · apply SlabHeader.standing_congr
    intro place lower upper
    exact Memory.byte_setNumber_outside (.inl (by omega))
  · refine ⟨rfl, ?_⟩
    have stored : (m.setNumber object 8 p.head).number object 8 = p.head :=
      Memory.number_setNumber (formatted.head_word formatted.slots)
    rw [stored]
    refine formatted.linked.congr fun other member place lower upper => ?_
    have different : other ≠ object := fun same => used (same ▸ member)
    have := (formatted.slots other member).apart slot different
    have := SizeClass.word_le_bytes p.sizeClass
    exact Memory.byte_setNumber_outside (by omega)
  · exact slots
  · exact List.nodup_cons.mpr ⟨used, formatted.distinct⟩

end SlabPage

end ZonedMemory
