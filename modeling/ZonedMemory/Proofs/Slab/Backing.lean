import ZonedMemory.Proofs.PageAllocator.Zones
import ZonedMemory.Proofs.Slab.Page

namespace ZonedMemory

/-!
What slab allocators share: the page allocator and the memory behind it. The slab pages are live
blocks of one page each among the other live blocks, and no other page looks like a slab page.
-/

namespace SlabPage

def block (p : SlabPage) : Block := ⟨p.addr / pageSize, 0⟩

/-- The page with another free list, if it is the one at an address. -/
def relist (addr : Nat) (free : List Nat) (p : SlabPage) : SlabPage :=
  if p.addr = addr then { p with free := free } else p

variable {m : Memory} {p : SlabPage} {pages : List SlabPage} {addr : Nat} {free : List Nat}

theorem Placed.block_addr (placed : p.Placed) : p.block.addr = p.addr := Nat.div_mul_cancel placed.paged

theorem block_bytes (p : SlabPage) : p.block.bytes = pageSize := Nat.one_mul pageSize

@[simp] theorem relist_slab : (p.relist addr free).slab = p.slab := by
  unfold relist
  split <;> rfl

@[simp] theorem relist_sizeClass : (p.relist addr free).sizeClass = p.sizeClass := by
  unfold relist
  split <;> rfl

@[simp] theorem relist_addr : (p.relist addr free).addr = p.addr := by
  unfold relist
  split <;> rfl

@[simp] theorem relist_next : (p.relist addr free).next = p.next := by
  unfold relist
  split <;> rfl

@[simp] theorem relist_block : (p.relist addr free).block = p.block := by
  rw [block, relist_addr, block]

theorem map_relist_block : (pages.map (relist addr free)).map block = pages.map block := by
  rw [List.map_map]
  exact List.map_congr_left fun p _ => relist_block

end SlabPage

namespace Backing

/-- The slab pages are live blocks of one page each, apart from the other live blocks, and no page
besides them looks like one. -/
structure Laid (k : Backing) (pages : List SlabPage) (others : List Block) : Prop where
  allocator : k.pages.Sound (pages.map SlabPage.block ++ others)
  reached : ∀ place, k.pages.Covers place → k.memory.reach place = .ok ()
  placed {p : SlabPage} (member : p ∈ pages) : p.Placed
  linked {p : SlabPage} (member : p ∈ pages) : (SlabHeader.standing k.memory p.addr).nextPage = p.next
  plain : ∀ page, pageSize ∣ page → k.pages.Covers page → (∀ p ∈ pages, p.addr ≠ page) →
    k.memory.number page 4 ≠ SlabHeader.validMagic

structure Stocked (k : Backing) (pages : List SlabPage) (others : List Block) : Prop
    extends Laid k pages others where
  formatted : ∀ p ∈ pages, p.Formatted k.memory

/-- Why no object in use is at an address. -/
inductive Denies (pages : List SlabPage) (addr : Nat) : SlabError → Prop
  | headless (elsewhere : ∀ p ∈ pages, p.addr ≠ addr / pageSize * pageSize) :
      Denies pages addr (.corrupted (addr / pageSize * pageSize))
  | between {p : SlabPage} (member : p ∈ pages) (start : p.addr = addr / pageSize * pageSize)
      (between : ¬ Slot p.addr p.sizeClass addr) : Denies pages addr .notSlabObject
  | unused {p : SlabPage} (member : p ∈ pages) (slot : Slot p.addr p.sizeClass addr)
      (free : addr ∈ p.free) : Denies pages addr .notAllocated

/-- The same memory and the same zones: only what look-ups remember differs. -/
structure Alike (k after : Backing) : Prop where
  memory : after.memory = k.memory
  zones : after.pages.zones.zones = k.pages.zones.zones
  kin : PageAllocator.Kin k.pages after.pages

theorem Alike.refl (k : Backing) : Alike k k := ⟨rfl, rfl, .refl _⟩

theorem Alike.symm {k after : Backing} (same : Alike k after) : Alike after k :=
  ⟨same.memory.symm, same.zones.symm, same.kin.symm⟩

theorem Alike.trans {first second third : Backing} (before : Alike first second)
    (later : Alike second third) : Alike first third :=
  ⟨later.memory.trans before.memory, later.zones.trans before.zones, before.kin.trans later.kin⟩

variable {k after : Backing} {pages : List SlabPage} {others left : List Block} {p q : SlabPage}
  {x : Block} {memory : Memory} {place page addr : Nat} {free : List Nat}

theorem Alike.sound {live : List Block} (alike : Alike k after) (sound : k.pages.Sound live) :
    after.pages.Sound live := sound.kin alike.kin (alike.zones ▸ sound.serving)

namespace Laid

theorem block_live (laid : k.Laid pages others) (member : p ∈ pages) :
    p.block ∈ pages.map SlabPage.block ++ others ∧ p.block.addr = p.addr :=
  ⟨List.mem_append_left _ (List.mem_map_of_mem member), (laid.placed member).block_addr⟩

theorem page_covers (laid : k.Laid pages others) (member : p ∈ pages) (covers : p.Covers place) :
    k.pages.Covers place := by
  obtain ⟨live, start⟩ := laid.block_live member
  refine laid.allocator.covers live ?_ ?_
  · rw [start]
    exact covers.1
  · rw [start, p.block_bytes]
    exact covers.2

theorem page_reached (laid : k.Laid pages others) (member : p ∈ pages) (place : Nat)
    (covers : p.Covers place) : k.memory.reach place = .ok () :=
  laid.reached place (laid.page_covers member covers)

theorem other_apart (laid : k.Laid pages others) (member : p ∈ pages) (other : x ∈ others) :
    p.addr + pageSize ≤ x.addr ∨ x.addr + x.bytes ≤ p.addr := by
  have apart := (List.pairwise_append.mp laid.allocator.serving.apart).2.2 p.block
    (List.mem_map_of_mem member) x other
  rwa [Block.apart_iff_addr, (laid.placed member).block_addr, p.block_bytes] at apart

theorem distinct (laid : k.Laid pages others) : (pages.map SlabPage.addr).Nodup := by
  have apart := (List.pairwise_append.mp laid.allocator.serving.apart).1
  refine List.pairwise_map.mpr ((List.pairwise_map.mp apart).imp fun {p q} apart same => ?_)
  have equal : p.block = q.block := by rw [SlabPage.block, same, SlabPage.block]
  exact Block.not_apart_self q.block (equal ▸ apart)

theorem eq_of_addr (laid : k.Laid pages others) (left : p ∈ pages) (right : q ∈ pages)
    (same : p.addr = q.addr) : p = q := List.inj_on_of_nodup_map laid.distinct left right same

theorem length_lt (laid : k.Laid pages others) : pages.length < 2 ^ 52 := by
  have listed : ∀ addr ∈ pages.map SlabPage.addr,
      addr ∈ (List.range (2 ^ 52 - 1)).map fun frame => pageSize * frame := by
    intro addr member
    obtain ⟨p, listed, rfl⟩ := List.mem_map.mp member
    obtain ⟨frame, start⟩ := (laid.placed listed).paged
    have word := (laid.placed listed).word
    rw [start] at word ⊢
    apply List.mem_map_of_mem
    change 4096 * frame + 2 * 4096 ≤ 2 ^ 64 at word
    exact List.mem_range.mpr (by omega)
  have count := (laid.distinct.subperm listed).length_le
  rw [List.length_map, List.length_map, List.length_range] at count
  omega

theorem alike (laid : k.Laid pages others) (same : Alike k after) : after.Laid pages others where
  allocator := same.sound laid.allocator
  reached place covers := by
    rw [same.memory]
    exact laid.reached place (same.kin.symm.covers covers)
  placed member := laid.placed member
  linked member := by
    rw [same.memory]
    exact laid.linked member
  plain page paged covers elsewhere := by
    rw [same.memory]
    exact laid.plain page paged (same.kin.symm.covers covers) elsewhere

theorem exchange {allocator : PageAllocator} (laid : k.Laid pages others)
    (kin : PageAllocator.Kin k.pages allocator)
    (sound : allocator.Sound (pages.map SlabPage.block ++ left)) :
    Laid { k with pages := allocator } pages left where
  allocator := sound
  reached place covers := laid.reached place (kin.symm.covers covers)
  placed member := laid.placed member
  linked member := laid.linked member
  plain page paged covers elsewhere := laid.plain page paged (kin.symm.covers covers) elsewhere

theorem untouched (laid : k.Laid pages others) (member : q ∈ pages) (paged : pageSize ∣ page)
    (different : q.addr ≠ page)
    (frame : ∀ place, place < page ∨ page + pageSize ≤ place → memory.byte place = k.memory.byte place)
    (place : Nat) (covers : q.Covers place) : memory.byte place = k.memory.byte place := by
  have apart := Address.paged_apart (laid.placed member).paged paged different
  simp only [SlabPage.Covers] at covers
  exact frame place (by omega)

/-- One slab page is written to: the pages that are none stay as they are. -/
theorem overwrite {allocator : PageAllocator} {next : List SlabPage} (laid : k.Laid pages others)
    (paged : pageSize ∣ page) (kin : PageAllocator.Kin k.pages allocator)
    (sound : allocator.Sound (next.map SlabPage.block ++ others)) (placed : ∀ q ∈ next, q.Placed)
    (linked : ∀ q ∈ next, (SlabHeader.standing memory q.addr).nextPage = q.next)
    (here : ∃ q ∈ next, q.addr = page) (all : ∀ q ∈ pages, ∃ r ∈ next, r.addr = q.addr)
    (translator : memory.translator = k.memory.translator)
    (frame : ∀ place, place < page ∨ page + pageSize ≤ place → memory.byte place = k.memory.byte place) :
    Laid ⟨allocator, memory⟩ next others where
  allocator := sound
  reached place covers := by
    rw [Memory.reach_congr translator]
    exact laid.reached place (kin.symm.covers covers)
  placed member := placed _ member
  linked member := linked _ member
  plain other otherPaged covers elsewhere := by
    obtain ⟨r, listed, start⟩ := here
    have different : other ≠ page := fun same => elsewhere r listed (start.trans same.symm)
    have apart := Address.paged_apart otherPaged paged different
    have room : 4 ≤ pageSize := by decide
    have same : memory.number other 4 = k.memory.number other 4 :=
      Memory.number_congr fun place inside => frame _ (by omega)
    rw [same]
    refine laid.plain other otherPaged (kin.symm.covers covers) fun q before same => ?_
    obtain ⟨r, after, equal⟩ := all q before
    exact elsewhere r after (equal.trans same)

theorem joined_ne {allocator : PageAllocator} (laid : k.Laid pages others)
    (sound : allocator.Sound (p.block :: (pages.map SlabPage.block ++ others))) (member : q ∈ pages) :
    q.addr ≠ p.addr := by
  intro same
  have apart := (List.pairwise_cons.mp sound.serving.apart).1 q.block (laid.block_live member).1
  have equal : q.block = p.block := by rw [SlabPage.block, same, SlabPage.block]
  exact Block.not_apart_self p.block (equal ▸ apart)

theorem join {allocator : PageAllocator} (laid : k.Laid pages others)
    (kin : PageAllocator.Kin k.pages allocator)
    (sound : allocator.Sound (p.block :: (pages.map SlabPage.block ++ others))) (placed : p.Placed)
    (linked : (SlabHeader.standing memory p.addr).nextPage = p.next)
    (translator : memory.translator = k.memory.translator)
    (frame : ∀ place, ¬ p.Covers place → memory.byte place = k.memory.byte place) :
    Laid ⟨allocator, memory⟩ (p :: pages) others := by
  have outside := p.outside_page frame
  refine laid.overwrite placed.paged kin sound ?_ ?_ ⟨p, List.mem_cons_self .., rfl⟩
    (fun q listed => ⟨q, List.mem_cons_of_mem _ listed, rfl⟩) translator outside
  · exact List.forall_mem_cons.mpr ⟨placed, fun q member => laid.placed member⟩
  · refine List.forall_mem_cons.mpr ⟨linked, fun q member => ?_⟩
    rw [SlabPage.standing_congr (laid.untouched member placed.paged (laid.joined_ne sound member) outside)]
    exact laid.linked member

theorem page_word (laid : k.Laid pages others) (covers : k.pages.Covers addr)
    (start : addr / pageSize * pageSize = page) :
    Address.alignDown addr pageSize = .ok page ∧ k.memory.reach page = .ok () := by
  have here : k.pages.Covers page := laid.allocator.covers_page covers start.le
    (start ▸ Nat.lt_add_of_pos_right pageSize_pos)
  exact ⟨start ▸ Address.alignDown_page (laid.allocator.covers_word covers), laid.reached page here⟩

theorem freeObject_headless (laid : k.Laid pages others) (covers : k.pages.Covers addr)
    (start : addr / pageSize * pageSize = page)
    (magic : (SlabHeader.standing k.memory page).magic ≠ SlabHeader.validMagic) :
    (SlabAllocator.freeObject addr k).outcome = .ok (.error (.corrupted page), k) := by
  obtain ⟨aligned, reached⟩ := laid.page_word covers start
  simp only [SlabAllocator.freeObject, Traced.outcome_bind, Traced.outcome_lift, aligned,
    SlabHeader.read_eq reached, ok_bind, SlabAllocator.objectSizeOf, if_neg magic, Traced.outcome_report,
    Traced.outcome_pure]

theorem plain_magic (laid : k.Laid pages others) (covers : k.pages.Covers addr)
    (plain : ∀ p ∈ pages, p.addr ≠ addr / pageSize * pageSize) :
    (SlabHeader.standing k.memory (addr / pageSize * pageSize)).magic ≠ SlabHeader.validMagic :=
  laid.plain _ (Nat.dvd_mul_left ..) (laid.allocator.covers_page covers (Nat.le_refl _)
    (Nat.lt_add_of_pos_right pageSize_pos)) plain

end Laid

namespace Stocked

theorem alike (stocked : k.Stocked pages others) (same : Alike k after) : after.Stocked pages others :=
  ⟨stocked.toLaid.alike same, same.memory ▸ stocked.formatted⟩

theorem relist (stocked : k.Stocked pages others) (member : p ∈ pages)
    (formatted : SlabPage.Formatted memory { p with free := free })
    (translator : memory.translator = k.memory.translator)
    (frame : ∀ place, ¬ p.Covers place → memory.byte place = k.memory.byte place) :
    Stocked { k with memory := memory } (pages.map (SlabPage.relist p.addr free)) others := by
  have all : ∀ q ∈ pages, ∃ r ∈ pages.map (SlabPage.relist p.addr free), r.addr = q.addr :=
    fun q listed => ⟨_, List.mem_map_of_mem listed, SlabPage.relist_addr⟩
  have paged := (stocked.placed member).paged
  have outside := p.outside_page frame
  have kept : ∀ q ∈ pages.map (SlabPage.relist p.addr free), q.Formatted memory := by
    intro q listed
    obtain ⟨q, before, rfl⟩ := List.mem_map.mp listed
    by_cases same : q.addr = p.addr
    · rw [SlabPage.relist, if_pos same, stocked.eq_of_addr before member same]
      exact formatted
    · rw [SlabPage.relist, if_neg same]
      have held := stocked.formatted q before
      exact held.congr fun place manages =>
        stocked.untouched before paged same outside place (held.manages_covers manages)
  refine ⟨stocked.overwrite paged (.refl _) ?_ (fun q listed => (kept q listed).placed)
    (fun q listed => (kept q listed).nextPage_eq) (all p member) all translator outside, kept⟩
  rw [SlabPage.map_relist_block]
  exact stocked.allocator

theorem join {allocator : PageAllocator} (stocked : k.Stocked pages others)
    (kin : PageAllocator.Kin k.pages allocator)
    (sound : allocator.Sound (p.block :: (pages.map SlabPage.block ++ others)))
    (formatted : p.Formatted memory) (translator : memory.translator = k.memory.translator)
    (frame : ∀ place, ¬ p.Covers place → memory.byte place = k.memory.byte place) :
    Stocked ⟨allocator, memory⟩ (p :: pages) others := by
  refine ⟨stocked.toLaid.join kin sound formatted.placed formatted.nextPage_eq translator frame, ?_⟩
  refine List.forall_mem_cons.mpr ⟨formatted, fun q before => ?_⟩
  have held := stocked.formatted q before
  exact held.congr fun place manages => stocked.untouched before formatted.placed.paged
    (stocked.joined_ne sound before) (p.outside_page frame) place (held.manages_covers manages)

/-- An object in use goes in front of the free list of its page; one that is free already stays
there. -/
theorem freeObject_slot (stocked : k.Stocked pages others) (covers : k.pages.Covers addr)
    (member : p ∈ pages) (slot : Slot p.addr p.sizeClass addr) :
    (SlabAllocator.freeObject addr k).outcome = .ok (
      if addr ∈ p.free then (.error .notAllocated, k)
      else (.ok (), { k with
        memory := SlabHeader.writeFreeList (k.memory.setNumber addr 8 p.head) p.addr addr
          (p.free.length + 1) })) := by
  have formatted := stocked.formatted p member
  obtain ⟨aligned, _⟩ := stocked.page_word covers (slot.page_eq formatted.placed.small formatted.placed.paged)
  have read := formatted.read_eq (stocked.page_reached member)
  have unused := formatted.unused_eq (stocked.page_reached member) slot
  have write := Memory.writeWord_eq p.header.freeList (stocked.reached addr covers)
  simp only [SlabAllocator.freeObject, Traced.outcome_bind, Traced.outcome_lift, aligned, read, ok_bind,
    formatted.objectSizeOf_eq, formatted.holdsObject_slot slot, if_true, Traced.outcome_ite]
  by_cases full : p.header.totalObjects ≤ p.header.freeCount
  · rw [if_pos full] at unused ⊢
    have free : addr ∈ p.free := by simpa using unused
    simp only [Traced.outcome_pure, Traced.outcome_report, ok_bind, if_true, if_pos free]
  · rw [if_neg full] at unused ⊢
    simp only [unused, ok_bind, decide_eq_true_eq, Traced.outcome_report, Traced.outcome_pure, write]
    split <;> rfl

theorem freeObject_between (stocked : k.Stocked pages others) (covers : k.pages.Covers addr)
    (member : p ∈ pages) (start : addr / pageSize * pageSize = p.addr)
    (between : ¬ Slot p.addr p.sizeClass addr) :
    (SlabAllocator.freeObject addr k).outcome = .ok (.error .notSlabObject, k) := by
  have formatted := stocked.formatted p member
  obtain ⟨aligned, _⟩ := stocked.page_word covers start
  have read := formatted.read_eq (stocked.page_reached member)
  have below : addr < p.addr + pageSize := by
    rw [← start, ← Nat.succ_mul]
    exact Nat.lt_mul_of_div_lt (Nat.lt_succ_self _) pageSize_pos
  obtain ⟨answer, tested, exactly⟩ := formatted.holdsObject_eq below
  have refused : answer ≠ true := fun held => between (exactly.mp held)
  simp only [SlabAllocator.freeObject, Traced.outcome_bind, Traced.outcome_lift, aligned, read, ok_bind,
    formatted.objectSizeOf_eq, tested, if_neg refused, Traced.outcome_report, Traced.outcome_pure]

/-- Freeing an object puts it on the free list of its page if it is in use; every other address is
refused. -/
theorem freeObject_eq (stocked : k.Stocked pages others) (covers : k.pages.Covers addr) :
    (∃ p ∈ pages, Slot p.addr p.sizeClass addr ∧ addr ∉ p.free ∧
      (SlabAllocator.freeObject addr k).outcome = .ok (.ok (), { k with
        memory := SlabHeader.writeFreeList (k.memory.setNumber addr 8 p.head) p.addr addr
          (p.free.length + 1) })) ∨
    ∃ reason, (SlabAllocator.freeObject addr k).outcome = .ok (.error reason, k) ∧
      Denies pages addr reason := by
  by_cases kept : ∃ p ∈ pages, p.addr = addr / pageSize * pageSize
  · obtain ⟨p, member, start⟩ := kept
    by_cases slot : Slot p.addr p.sizeClass addr
    · have answer := stocked.freeObject_slot covers member slot
      by_cases free : addr ∈ p.free
      · rw [if_pos free] at answer
        exact .inr ⟨_, answer, .unused member slot free⟩
      · rw [if_neg free] at answer
        exact .inl ⟨p, member, slot, free, answer⟩
    · exact .inr ⟨_, stocked.freeObject_between covers member start.symm slot, .between member start slot⟩
  · push Not at kept
    exact .inr ⟨_, stocked.freeObject_headless covers rfl (stocked.plain_magic covers kept), .headless kept⟩

end Stocked

end Backing

end ZonedMemory
