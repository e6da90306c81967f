import ZonedMemory.Proofs.Buddy.Canonical
import ZonedMemory.Proofs.Machine.Run

namespace ZonedMemory

/-!
What the memory of a machine shows of its slab allocators. Following the links of a cache leads to each
of its pages once, and following the free list of a page leads to those of its objects that are not
live.
-/

/-- Following `next` from a link on leads to these addresses, one after the other, and then to the end. -/
def Chain (next : Nat → Except Fault Nat) (stop : Nat) : (link : Nat) → List Nat → Prop
  | link, [] => link = stop
  | link, first :: rest =>
      link = first ∧ first ≠ stop ∧ ∃ following, next first = .ok following ∧ Chain next stop following rest

theorem Chain.unique {next : Nat → Except Fault Nat} {stop link : Nat} {left right : List Nat}
    (chain : Chain next stop link left) (other : Chain next stop link right) : left = right := by
  induction left generalizing link right with
  | nil =>
      cases right with
      | nil => rfl
      | cons first rest => exact absurd (other.1.symm.trans chain) other.2.1
  | cons first rest ih =>
      cases right with
      | nil => exact absurd (chain.1.symm.trans other) chain.2.1
      | cons second others =>
          -- both go on with what `next` answers for the same address
          obtain ⟨rfl, _, following, found, chain⟩ := chain
          obtain ⟨rfl, _, later, again, other⟩ := other
          rw [Except.ok.inj (found.symm.trans again)] at chain
          rw [ih chain other]

namespace SlabPage

variable {m : Memory} {p : SlabPage} {object : Nat} {free : List Nat}

theorem Linked.chain (linked : Linked m object free) (reached : ∀ first ∈ free, m.reach first = .ok ())
    (some : ∀ first ∈ free, first ≠ 0) : Chain m.readWord 0 object free := by
  induction free generalizing object with
  | nil => exact linked
  | cons first rest ih =>
      obtain ⟨rfl, linked⟩ := linked
      obtain ⟨here, laterReached⟩ := List.forall_mem_cons.mp reached
      obtain ⟨nonzero, laterSome⟩ := List.forall_mem_cons.mp some
      exact ⟨rfl, nonzero, _, Memory.readWord_eq here, ih linked laterReached laterSome⟩

end SlabPage

namespace Machine

def nextPage (m : Memory) (page : Nat) : Except Fault Nat := do
  return (← SlabHeader.read m page).nextPage

/-- A page that is cut up for a size class. `Live` tells which of its objects are in use. -/
structure Sliced (m : Memory) (sizeClass page : Nat) (Live : Nat → Prop) (header : SlabHeader)
    (free : List Nat) : Prop where
  read : SlabHeader.read m page = .ok header
  magic : header.magic = SlabHeader.validMagic
  objectSize : SizeClass.objectSize sizeClass = .ok header.objectSize
  totalObjects : SlabHeader.objectsPerPage header.objectSize = .ok header.totalObjects
  chain : Chain m.readWord 0 header.freeList free
  counted : free.length = header.freeCount
  distinct : free.Nodup
  slots : ∀ object ∈ free, Slot page sizeClass object
  live : ∀ object, Live object ↔ Slot page sizeClass object ∧ object ∉ free

namespace Session

/-- A page in the cache of a size class, and in no other hands. -/
structure Cached (s : Session) (slab sizeClass page : Nat) : Prop where
  allocated : ∃ z ∈ s.machine.zones, z.Covers page ∧
    z.buddy.blockState? page = .ok (some (.allocated 0))
  sliced : ∃ header free, Sliced s.machine.backing.memory sizeClass page
    (fun object => ∃ g ∈ s.small, g.addr = object ∧ object / pageSize * pageSize = page) header free
  residents : ∀ g ∈ s.small, g.addr / pageSize * pageSize = page →
    g.slab = slab ∧ SizeClass.holding g.size = sizeClass
  alone : ∀ (other otherClass : Nat) (allocator : SlabAllocator) (bound : otherClass < SizeClass.count)
      (pages : List Nat), s.machine.slabs[other]? = some allocator →
    Chain (nextPage s.machine.backing.memory) SlabHeader.noPage allocator.caches[otherClass].firstPage
      pages → page ∈ pages → other = slab ∧ otherClass = sizeClass
  unshared : ∀ x ∈ s.blocks, page + pageSize ≤ x.addr ∨ x.addr + x.bytes ≤ page

variable {s : Session} {pages own : List SlabPage} {p : SlabPage} {allocator : SlabAllocator}
  {slab sizeClass link : Nat}

namespace Sound

theorem read_page (sound : s.Sound pages) (member : p ∈ pages) :
    SlabHeader.read s.machine.backing.memory p.addr = .ok p.header :=
  (sound.formatted p member).read_eq (sound.stocked.page_reached member)

theorem page_chain (sound : s.Sound pages) (members : ∀ p ∈ own, p ∈ pages)
    (chained : SlabCache.Chained link own) :
    Chain (nextPage s.machine.backing.memory) SlabHeader.noPage link (own.map SlabPage.addr) := by
  induction own generalizing link with
  | nil => exact chained
  | cons p rest ih =>
      obtain ⟨rfl, chained⟩ := chained
      have member := members p (List.mem_cons_self ..)
      have some : p.addr ≠ SlabHeader.noPage := (sound.laid.placed member).ne_noPage
      refine ⟨rfl, some, p.next, ?_, ih (fun q later => members q (List.mem_cons_of_mem _ later)) chained⟩
      rw [nextPage, sound.read_page member]
      rfl

theorem cache_chain (sound : s.Sound pages) (found : s.machine.slabs[slab]? = some allocator)
    (bound : sizeClass < SizeClass.count) :
    Chain (nextPage s.machine.backing.memory) SlabHeader.noPage allocator.caches[sizeClass].firstPage
      (((pages.filter fun p => p.slab = slab).filter fun p => p.sizeClass = sizeClass).map SlabPage.addr) := by
  apply sound.page_chain _ ((sound.slabs slab allocator found).caches sizeClass bound).chained
  exact fun p listed => (List.mem_filter.mp (List.mem_filter.mp listed).1).1

theorem sliced (sound : s.Sound pages) (member : p ∈ pages) :
    Sliced s.machine.backing.memory p.sizeClass p.addr
      (fun object => ∃ g ∈ s.small, g.addr = object ∧ object / pageSize * pageSize = p.addr) p.header
      p.free where
  read := sound.read_page member
  magic := rfl
  objectSize := SizeClass.objectSize_eq (sound.laid.placed member).small
  totalObjects := SizeClass.objectsPerPage_eq (sound.laid.placed member).small
  chain := by
    have formatted := sound.formatted p member
    refine formatted.linked.chain (fun object free => ?_) fun object free => ?_
    · have inside := formatted.slot_covered (formatted.slots object free)
      exact sound.stocked.page_reached member object ⟨by omega, by omega⟩
    · have inside := formatted.slot_covered (formatted.slots object free)
      have : SlabHeader.size = 32 := rfl
      omega
  counted := rfl
  distinct := (sound.formatted p member).distinct
  slots := (sound.formatted p member).slots
  live object := by
    constructor
    · rintro ⟨g, live, rfl, start⟩
      obtain ⟨q, other, serves⟩ := sound.served g live
      obtain ⟨small, paged, _⟩ := sound.laid.placed other
      obtain rfl := sound.laid.eq_of_addr other member ((serves.slot.page_eq small paged).symm.trans start)
      exact ⟨serves.slot, serves.used⟩
    · rintro ⟨slot, used⟩
      obtain ⟨small, paged, _⟩ := sound.laid.placed member
      obtain ⟨g, live, rfl⟩ := sound.taken p member object slot used
      exact ⟨g, live, rfl, slot.page_eq small paged⟩

theorem page_allocated (sound : s.Sound pages) (member : p ∈ pages) : ∃ z ∈ s.machine.zones,
    z.Covers p.addr ∧ z.buddy.blockState? p.addr = .ok (some (.allocated 0)) := by
  obtain ⟨live, start⟩ := sound.laid.block_live member
  rw [← start]
  exact sound.allocator.allocated live

theorem cached (sound : s.Sound pages) (member : p ∈ pages) : s.Cached p.slab p.sizeClass p.addr where
  allocated := sound.page_allocated member
  sliced := ⟨p.header, p.free, sound.sliced member⟩
  residents g live start := by
    obtain ⟨q, other, serves⟩ := sound.served g live
    obtain ⟨small, paged, _⟩ := sound.laid.placed other
    obtain rfl := sound.laid.eq_of_addr other member ((serves.slot.page_eq small paged).symm.trans start)
    exact ⟨serves.slab.symm, serves.sizeClass.symm⟩
  alone other otherClass allocator bound visited found chain listed := by
    rw [chain.unique (sound.cache_chain found bound)] at listed
    obtain ⟨q, kept, start⟩ := List.mem_map.mp listed
    obtain ⟨inSlab, ofClass⟩ := List.mem_filter.mp kept
    obtain ⟨inPages, ofSlab⟩ := List.mem_filter.mp inSlab
    obtain rfl := sound.laid.eq_of_addr inPages member start
    exact ⟨(of_decide_eq_true ofSlab).symm, (of_decide_eq_true ofClass).symm⟩
  unshared x block := sound.laid.other_apart member block

end Sound

/-- In every session the links of a cache lead to exactly as many pages as it counts, none twice. Each
is its own, cut up for its class, and its live objects are those that its free list does not lead to. -/
theorem reached_cached (reached : Reached s) (found : s.machine.slabs[slab]? = some allocator)
    (bound : sizeClass < SizeClass.count) :
    ∃ pages, Chain (nextPage s.machine.backing.memory) SlabHeader.noPage
        allocator.caches[sizeClass].firstPage pages ∧
      pages.length = allocator.caches[sizeClass].pageCount ∧ pages.Nodup ∧
      ∀ page ∈ pages, s.Cached slab sizeClass page := by
  obtain ⟨pages, sound⟩ := reached.sound
  have keeps := (sound.slabs slab allocator found).caches sizeClass bound
  refine ⟨_, sound.cache_chain found bound, ?_, ?_, fun page listed => ?_⟩
  · rw [List.length_map, keeps.counted]
  · exact sound.laid.distinct.sublist ((List.filter_sublist.trans List.filter_sublist).map _)
  · obtain ⟨p, kept, rfl⟩ := List.mem_map.mp listed
    obtain ⟨inSlab, ofClass⟩ := List.mem_filter.mp kept
    obtain ⟨member, ofSlab⟩ := List.mem_filter.mp inSlab
    obtain rfl := of_decide_eq_true ofSlab
    obtain rfl := of_decide_eq_true ofClass
    exact sound.cached member

theorem reached_cached_eight : ∃ (s : Session) (g : SlabGrant) (allocator : SlabAllocator)
    (bound : SizeClass.holding g.size < SizeClass.count),
    (Reached s ∧ s.small = [g] ∧ s.machine.slabs[g.slab]? = some allocator) ∧
    ∃ pages, Chain (nextPage s.machine.backing.memory) SlabHeader.noPage
        allocator.caches[SizeClass.holding g.size].firstPage pages ∧
      pages.length = allocator.caches[SizeClass.holding g.size].pageCount ∧ pages.Nodup ∧
      ∀ page ∈ pages, s.Cached g.slab (SizeClass.holding g.size) page := by
  obtain ⟨s, reached, lengths⟩ := oneOfEach_reached
  obtain ⟨g, only⟩ := List.length_eq_one_iff.mp lengths.1
  have live : g ∈ s.small := only ▸ List.mem_singleton_self g
  obtain ⟨pages, sound⟩ := reached.sound
  obtain ⟨p, member, serves⟩ := sound.served g live
  obtain ⟨allocator, found, _⟩ := sound.owned p member
  rw [serves.slab] at found
  have bound : SizeClass.holding g.size < SizeClass.count :=
    serves.sizeClass ▸ (sound.laid.placed member).small
  exact ⟨s, g, allocator, bound, ⟨reached, only, found⟩, reached_cached reached found bound⟩

end Session

end Machine

end ZonedMemory
