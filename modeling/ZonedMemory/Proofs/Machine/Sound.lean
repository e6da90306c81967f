import ZonedMemory.Proofs.Machine.Session
import ZonedMemory.Proofs.PageAllocator.Records
import ZonedMemory.Proofs.Slab.Cache
import ZonedMemory.Proofs.Slab.LargeTable

namespace ZonedMemory

/-!
The invariant of sessions. It speaks of the slab pages as their allocators left them: each page is in
the cache of its class, and the objects that are not on its free list are the live ones.
-/

def SlabGrant.entry (g : SlabGrant) : LargeAllocation := ⟨g.addr, Word.divUp g.size pageSize⟩

structure SlabPage.Serves (p : SlabPage) (g : SlabGrant) : Prop where
  slab : p.slab = g.slab
  sizeClass : p.sizeClass = SizeClass.holding g.size
  slot : Slot p.addr p.sizeClass g.addr
  used : g.addr ∉ p.free

/-- The allocator knows its pages and its large allocations. -/
structure SlabAllocator.Keeps (a : SlabAllocator) (pages : List SlabPage)
    (large : List LargeAllocation) : Prop where
  caches : ∀ (sizeClass : Nat) (bound : sizeClass < SizeClass.count),
    a.caches[sizeClass].Keeps sizeClass (pages.filter fun p => p.sizeClass = sizeClass)
  large : a.large.Keeps large

namespace Machine

namespace Session

/-- The slab allocators know the slab pages and the large blocks, whatever the pages hold. -/
structure Kept (s : Session) (pages : List SlabPage) : Prop where
  laid : s.machine.backing.Laid pages s.blocks
  slabs : ∀ (slab : Nat) (allocator : SlabAllocator), s.machine.slabs[slab]? = some allocator →
    allocator.Keeps (pages.filter fun p => p.slab = slab)
      ((s.large.filter fun g => g.slab = slab).map SlabGrant.entry)
  owned : ∀ p ∈ pages, ∃ allocator, s.machine.slabs[p.slab]? = some allocator ∧
    s.machine.pages.Provides allocator.flags p.block
  held : ∀ g ∈ s.large, pageSize ∣ g.addr ∧ g.slab < s.machine.slabs.length

structure Sound (s : Session) (pages : List SlabPage) : Prop extends Kept s pages where
  formatted : ∀ p ∈ pages, p.Formatted s.machine.backing.memory
  served : ∀ g ∈ s.small, ∃ p ∈ pages, p.Serves g
  taken : ∀ p ∈ pages, ∀ object, Slot p.addr p.sizeClass object → object ∉ p.free →
    ∃ g ∈ s.small, g.addr = object
  distinct : (s.small.map SlabGrant.addr).Nodup

end Session

variable {m : Memory} {link : Nat} {chain pages : List SlabPage} {s : Session} {p : SlabPage}
  {g h : SlabGrant} {x : Block} {addr place : Nat}

theorem linkedPages_eq (placed : ∀ p ∈ chain, p.Placed)
    (linked : ∀ p ∈ chain, (SlabHeader.standing m p.addr).nextPage = p.next)
    (chained : SlabCache.Chained link chain) :
    linkedPages m chain.length link = chain.map SlabPage.addr := by
  induction chain generalizing link with
  | nil => rfl
  | cons p rest ih =>
      obtain ⟨rfl, chained⟩ := chained
      have some := (placed p (List.mem_cons_self ..)).ne_noPage
      rw [List.length_cons, linkedPages, if_neg some, linked p (List.mem_cons_self ..), List.map_cons,
        ih (fun q listed => placed q (List.mem_cons_of_mem _ listed))
          (fun q listed => linked q (List.mem_cons_of_mem _ listed)) chained]

namespace Session.Kept

theorem allocator (kept : s.Kept pages) :
    s.machine.pages.Sound (pages.map SlabPage.block ++ s.blocks) := kept.laid.allocator

theorem cachedPages_eq (kept : s.Kept pages) {slab sizeClass : Nat} {allocator : SlabAllocator}
    (found : s.machine.slabs[slab]? = some allocator) (bound : sizeClass < SizeClass.count) :
    linkedPages s.machine.backing.memory allocator.caches[sizeClass].pageCount
        allocator.caches[sizeClass].firstPage =
      ((pages.filter fun p => p.slab = slab).filter fun p => p.sizeClass = sizeClass).map
        SlabPage.addr := by
  have keeps := (kept.slabs slab allocator found).caches sizeClass bound
  rw [keeps.counted]
  have members : ∀ p ∈ (pages.filter fun p => p.slab = slab).filter fun p => p.sizeClass = sizeClass,
      p ∈ pages := fun p listed => (List.mem_filter.mp (List.mem_filter.mp listed).1).1
  exact linkedPages_eq (fun p listed => kept.laid.placed (members p listed))
    (fun p listed => kept.laid.linked (members p listed)) keeps.chained

theorem mem_cachedPages (kept : s.Kept pages) {slab sizeClass : Nat} {allocator : SlabAllocator}
    (found : s.machine.slabs[slab]? = some allocator) (bound : sizeClass < SizeClass.count) :
    addr ∈ linkedPages s.machine.backing.memory allocator.caches[sizeClass].pageCount
        allocator.caches[sizeClass].firstPage ↔
      ∃ p ∈ pages, p.slab = slab ∧ p.sizeClass = sizeClass ∧ p.addr = addr := by
  rw [kept.cachedPages_eq found bound]
  simp only [List.mem_map, List.mem_filter, decide_eq_true_eq, and_assoc]

theorem mem_ownPages (kept : s.Kept pages) {slab : Nat} {allocator : SlabAllocator}
    (found : s.machine.slabs[slab]? = some allocator) :
    (addr ∈ allocator.caches.toList.flatMap fun cache =>
      linkedPages s.machine.backing.memory cache.pageCount cache.firstPage) ↔
      ∃ p ∈ pages, p.slab = slab ∧ p.addr = addr := by
  rw [List.mem_flatMap]
  constructor
  · intro listed
    obtain ⟨cache, inCaches, linked⟩ := listed
    obtain ⟨sizeClass, bound, rfl⟩ := List.mem_iff_getElem.mp inCaches
    rw [Vector.length_toList] at bound
    rw [Vector.getElem_toList, kept.mem_cachedPages found bound] at linked
    obtain ⟨p, member, own, _, start⟩ := linked
    exact ⟨p, member, own, start⟩
  · intro own
    obtain ⟨p, member, own, start⟩ := own
    have bound := (kept.laid.placed member).small
    refine ⟨allocator.caches[p.sizeClass], ?_, ?_⟩
    · rw [← Vector.getElem_toList (by rwa [Vector.length_toList])]
      exact List.getElem_mem _
    · exact (kept.mem_cachedPages found bound).mpr ⟨p, member, own, rfl, start⟩

theorem mem_slabPages (kept : s.Kept pages) :
    addr ∈ s.machine.slabPages ↔ ∃ p ∈ pages, p.addr = addr := by
  rw [slabPages, List.mem_flatMap]
  constructor
  · intro listed
    obtain ⟨allocator, member, linked⟩ := listed
    obtain ⟨slab, found⟩ := List.mem_iff_getElem?.mp member
    obtain ⟨p, member, _, start⟩ := (kept.mem_ownPages found).mp linked
    exact ⟨p, member, start⟩
  · intro own
    obtain ⟨p, member, start⟩ := own
    obtain ⟨allocator, found, _⟩ := kept.owned p member
    exact ⟨allocator, List.mem_of_getElem? found, (kept.mem_ownPages found).mpr ⟨p, member, rfl, start⟩⟩

theorem ownPages_nodup (kept : s.Kept pages) {slab : Nat} {allocator : SlabAllocator}
    (found : s.machine.slabs[slab]? = some allocator) :
    (allocator.caches.toList.flatMap fun cache =>
      linkedPages s.machine.backing.memory cache.pageCount cache.firstPage).Nodup := by
  refine List.nodup_flatMap.mpr ⟨fun cache inCaches => ?_, List.pairwise_iff_getElem.mpr ?_⟩
  · obtain ⟨sizeClass, bound, rfl⟩ := List.mem_iff_getElem.mp inCaches
    rw [Vector.length_toList] at bound
    rw [Vector.getElem_toList, kept.cachedPages_eq found bound]
    exact kept.laid.distinct.sublist ((List.filter_sublist.trans List.filter_sublist).map _)
  · intro i j left right less addr inLeft inRight
    rw [Vector.length_toList] at left right
    rw [Vector.getElem_toList, kept.mem_cachedPages found left] at inLeft
    rw [Vector.getElem_toList, kept.mem_cachedPages found right] at inRight
    obtain ⟨p, member, _, rfl, start⟩ := inLeft
    obtain ⟨q, other, _, rfl, same⟩ := inRight
    rw [kept.laid.eq_of_addr member other (start.trans same.symm)] at less
    exact Nat.lt_irrefl _ less

theorem slabPages_nodup (kept : s.Kept pages) : s.machine.slabPages.Nodup := by
  refine List.nodup_flatMap.mpr ⟨fun allocator member => ?_, List.pairwise_iff_getElem.mpr ?_⟩
  · obtain ⟨slab, found⟩ := List.mem_iff_getElem?.mp member
    exact kept.ownPages_nodup found
  · intro i j left right less addr inLeft inRight
    obtain ⟨p, member, rfl, start⟩ := (kept.mem_ownPages (List.getElem?_eq_getElem left)).mp inLeft
    obtain ⟨q, other, rfl, same⟩ := (kept.mem_ownPages (List.getElem?_eq_getElem right)).mp inRight
    rw [kept.laid.eq_of_addr member other (start.trans same.symm)] at less
    exact Nat.lt_irrefl _ less

end Session.Kept

namespace Session.Sound

theorem stocked (sound : s.Sound pages) : s.machine.backing.Stocked pages s.blocks :=
  ⟨sound.laid, sound.formatted⟩

theorem unwritten {next : Session} (sound : s.Sound pages) (kept : next.Kept pages)
    (memory : next.machine.backing.memory = s.machine.backing.memory) (small : next.small = s.small) :
    next.Sound pages where
  toKept := kept
  formatted := memory ▸ sound.formatted
  served := small ▸ sound.served
  taken := small ▸ sound.taken
  distinct := small ▸ sound.distinct

theorem object_inside (sound : s.Sound pages) (member : p ∈ pages) (serves : p.Serves g) :
    g.room = SizeClass.bytes p.sizeClass ∧ p.addr + SlabHeader.size ≤ g.addr ∧
      g.addr + g.room ≤ p.addr + pageSize := by
  have room : g.room = SizeClass.bytes p.sizeClass := by
    rw [serves.sizeClass, SizeClass.bytes_holding]
    rfl
  refine ⟨room, ?_⟩
  rw [room]
  exact serves.slot.inside (sound.stocked.placed member).small

theorem objects_apart (sound : s.Sound pages) : (s.small.map SlabGrant.object).Pairwise Range.Apart := by
  refine List.pairwise_map.mpr ((List.pairwise_map.mp sound.distinct).imp_of_mem ?_)
  intro g h left right different
  obtain ⟨p, member, serves⟩ := sound.served g left
  obtain ⟨q, other, otherServes⟩ := sound.served h right
  have inside := sound.object_inside member serves
  have otherInside := sound.object_inside other otherServes
  change g.addr + g.room ≤ h.addr ∨ h.addr + h.room ≤ g.addr
  by_cases same : p.addr = q.addr
  · obtain rfl := sound.stocked.eq_of_addr member other same
    rw [inside.1, otherInside.1]
    exact serves.slot.apart otherServes.slot different
  · have apart := Address.paged_apart (sound.stocked.placed member).paged
      (sound.stocked.placed other).paged same
    omega

theorem object_block_apart (sound : s.Sound pages) (live : g ∈ s.small) (block : x ∈ s.blocks) :
    g.object.Apart x.range := by
  obtain ⟨p, member, serves⟩ := sound.served g live
  have inside := sound.object_inside member serves
  have apart := sound.stocked.other_apart member block
  change g.addr + g.room ≤ x.addr ∨ x.addr + x.bytes ≤ g.addr
  omega

theorem object_header_apart (sound : s.Sound pages) (live : g ∈ s.small) (member : p ∈ pages) :
    g.object.Apart ⟨p.addr, SlabHeader.size⟩ := by
  obtain ⟨q, other, serves⟩ := sound.served g live
  have inside := sound.object_inside other serves
  have least : SlabHeader.size ≤ pageSize := by decide
  change g.addr + g.room ≤ p.addr ∨ p.addr + SlabHeader.size ≤ g.addr
  by_cases same : p.addr = q.addr
  · exact .inr (same ▸ inside.2.1)
  · have apart := Address.paged_apart (sound.stocked.placed member).paged
      (sound.stocked.placed other).paged same
    omega

theorem block_header_apart (sound : s.Sound pages) (block : x ∈ s.blocks) (member : p ∈ pages) :
    x.range.Apart ⟨p.addr, SlabHeader.size⟩ := by
  have apart := sound.stocked.other_apart member block
  have least : SlabHeader.size ≤ pageSize := by decide
  change x.addr + x.bytes ≤ p.addr ∨ p.addr + SlabHeader.size ≤ x.addr
  omega

theorem blocks_apart (sound : s.Sound pages) : (s.blocks.map Block.range).Pairwise Range.Apart := by
  have apart := (List.pairwise_append.mp sound.stocked.allocator.serving.apart).2.1
  exact List.pairwise_map.mpr (apart.imp fun {x y} apart => Block.apart_iff_addr.mp apart)

theorem headers_apart (sound : s.Sound pages) : s.headers.Pairwise Range.Apart := by
  refine List.pairwise_map.mpr (sound.slabPages_nodup.imp_of_mem ?_)
  intro page other left right different
  obtain ⟨p, member, rfl⟩ := sound.mem_slabPages.mp left
  obtain ⟨q, listed, rfl⟩ := sound.mem_slabPages.mp right
  have least : SlabHeader.size ≤ pageSize := by decide
  have apart := Address.paged_apart (sound.stocked.placed member).paged
    (sound.stocked.placed listed).paged different
  change p.addr + SlabHeader.size ≤ q.addr ∨ q.addr + SlabHeader.size ≤ p.addr
  omega

theorem separated (sound : s.Sound pages) : s.Separated where
  apart := by
    refine List.pairwise_append.mpr ⟨List.pairwise_append.mpr ⟨sound.objects_apart, sound.blocks_apart, ?_⟩,
      sound.headers_apart, ?_⟩
    · intro r left other right
      obtain ⟨g, live, rfl⟩ := List.mem_map.mp left
      obtain ⟨x, block, rfl⟩ := List.mem_map.mp right
      exact sound.object_block_apart live block
    · intro r left header right
      obtain ⟨page, listed, rfl⟩ := List.mem_map.mp right
      obtain ⟨p, member, rfl⟩ := sound.mem_slabPages.mp listed
      rcases List.mem_append.mp left with objects | blocks
      · obtain ⟨g, live, rfl⟩ := List.mem_map.mp objects
        exact sound.object_header_apart live member
      · obtain ⟨x, block, rfl⟩ := List.mem_map.mp blocks
        exact sound.block_header_apart block member
  small g live := by
    obtain ⟨p, member, serves⟩ := sound.served g live
    obtain ⟨small, paged, _⟩ := sound.stocked.placed member
    obtain ⟨room, _⟩ := sound.object_inside member serves
    refine ⟨?_, room ▸ serves.slot.dvd small paged, serves.slot.not_paged small paged⟩
    rw [room, serves.sizeClass]
    exact SizeClass.le_bytes g.size
  zoned g live := by
    obtain ⟨p, member, serves⟩ := sound.served g live
    obtain ⟨allocator, found, z, listed, matching, owns⟩ := sound.owned p member
    have inside := sound.object_inside member serves
    obtain ⟨block, start⟩ := sound.stocked.block_live member
    have bounds := (sound.stocked.allocator.serving.sound z listed).inside block owns
    rw [start, p.block_bytes] at bounds
    exact ⟨allocator, serves.slab ▸ found, z, listed, matching, by omega, by omega⟩
  housed g live := by
    obtain ⟨p, member, serves⟩ := sound.served g live
    obtain ⟨small, paged, _⟩ := sound.stocked.placed member
    rw [serves.slot.page_eq small paged]
    exact sound.mem_slabPages.mpr ⟨p, member, rfl⟩
  linked allocator member cache inCaches := by
    obtain ⟨slab, found⟩ := List.mem_iff_getElem?.mp member
    obtain ⟨sizeClass, bound, rfl⟩ := List.mem_iff_getElem.mp inCaches
    rw [Vector.length_toList] at bound
    have keeps := (sound.slabs slab allocator found).caches sizeClass bound
    rw [Vector.getElem_toList, sound.cachedPages_eq found bound, List.length_map, keeps.counted]

theorem allocation_inside {r : Range} (sound : s.Sound pages) (live : r ∈ s.allocations) :
    ∃ x ∈ pages.map SlabPage.block ++ s.blocks,
      x.addr ≤ r.base ∧ r.base + r.size ≤ x.addr + x.bytes := by
  rcases List.mem_append.mp live with objects | blocks
  · obtain ⟨g, listed, rfl⟩ := List.mem_map.mp objects
    obtain ⟨p, member, serves⟩ := sound.served g listed
    have inside := sound.object_inside member serves
    obtain ⟨block, start⟩ := sound.stocked.block_live member
    refine ⟨p.block, block, ?_⟩
    rw [start, p.block_bytes]
    change p.addr ≤ g.addr ∧ g.addr + g.room ≤ p.addr + pageSize
    omega
  · obtain ⟨x, block, rfl⟩ := List.mem_map.mp blocks
    exact ⟨x, List.mem_append_right _ block, Nat.le_refl _, Nat.le_refl _⟩

theorem allocation_covers {r : Range} (sound : s.Sound pages) (live : r ∈ s.allocations)
    (holds : r.Holds place) : s.machine.pages.Covers place := by
  obtain ⟨x, block, inside⟩ := sound.allocation_inside live
  have := holds.1
  have := holds.2
  exact sound.stocked.allocator.covers block (by omega) (by omega)

/-- No slab page keeps track of anything in bytes that a client has. -/
theorem allocation_unmanaged {r : Range} (sound : s.Sound pages) (live : r ∈ s.allocations)
    (holds : r.Holds place) (member : p ∈ pages) : ¬ p.Manages place := by
  intro manages
  obtain ⟨lower, upper⟩ := holds
  have formatted := sound.stocked.formatted p member
  rcases List.mem_append.mp live with objects | blocks
  · obtain ⟨g, listed, rfl⟩ := List.mem_map.mp objects
    change g.addr ≤ place at lower
    change place < g.addr + g.room at upper
    rcases manages with header | ⟨object, free, objectLower, objectUpper⟩
    · have apart := sound.object_header_apart listed member
      change g.addr + g.room ≤ p.addr ∨ p.addr + SlabHeader.size ≤ g.addr at apart
      have := header.1
      have := header.2
      omega
    · have slot := formatted.slots object free
      obtain ⟨q, other, serves⟩ := sound.served g listed
      have inside := sound.object_inside other serves
      by_cases same : p.addr = q.addr
      · obtain rfl := sound.stocked.eq_of_addr member other same
        have different : object ≠ g.addr := fun equal => serves.used (equal ▸ free)
        have := slot.apart serves.slot different
        have := SizeClass.word_le_bytes p.sizeClass
        omega
      · have := formatted.slot_covered slot
        have := Address.paged_apart (sound.stocked.placed member).paged
          (sound.stocked.placed other).paged same
        omega
  · obtain ⟨x, block, rfl⟩ := List.mem_map.mp blocks
    have covers := formatted.manages_covers manages
    have apart := sound.stocked.other_apart member block
    change x.addr ≤ place at lower
    change place < x.addr + x.bytes at upper
    simp only [SlabPage.Covers] at covers
    omega

theorem byte_eq (sound : s.Sound pages) (covers : s.machine.pages.Covers place) :
    s.machine.byte place = s.machine.backing.memory.byte place := by
  have none : s.machine.pages.recordByte? place = none :=
    sound.stocked.allocator.recordByte?_eq_none covers
  rw [byte, none, Option.getD_none]

end Session.Sound

end Machine

end ZonedMemory
