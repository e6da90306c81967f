import ZonedMemory.Machine
import ZonedMemory.Proofs.MemoryMap
import ZonedMemory.Proofs.Slab.Backing

namespace ZonedMemory

/-!
Clients at work on a machine. A session keeps a ledger of everything that was given out and not given
back.
-/

def Block.range (x : Block) : Range := ⟨x.addr, x.bytes⟩

/-- Memory that a slab allocator gave out, and the size that was asked for. -/
structure SlabGrant where
  slab : Nat
  addr : Nat
  size : Nat

namespace SlabGrant

/-- The size of the smallest class whose objects hold the request. -/
def room (g : SlabGrant) : Nat := 2 ^ Nat.clog 2 (max g.size SizeClass.smallest)

def object (g : SlabGrant) : Range := ⟨g.addr, g.room⟩

/-- The pages for a request that is larger than every class. -/
def block (g : SlabGrant) : Block :=
  ⟨Frame.ofAddress g.addr, Nat.clog 2 (Word.divUp g.size pageSize)⟩

end SlabGrant

namespace Machine

/-- The pages that links lead to from `link` on, at most `steps` of them. -/
def linkedPages (m : Memory) : (steps link : Nat) → List Nat
  | 0, _ => []
  | steps + 1, link =>
      if link = SlabHeader.noPage then []
      else link :: linkedPages m steps (SlabHeader.standing m link).nextPage

def slabPages (m : Machine) : List Nat :=
  m.slabs.flatMap fun allocator => allocator.caches.toList.flatMap fun cache =>
    linkedPages m.backing.memory cache.pageCount cache.firstPage

/-- The page is a slab page for the objects of a class, as its header says. -/
structure Divided (m : Machine) (page sizeClass : Nat) : Prop where
  listed : page ∈ m.slabPages
  small : sizeClass < SizeClass.count
  objectSize : (SlabHeader.standing m.backing.memory page).objectSize = SizeClass.bytes sizeClass

def leadingNumber (m : Machine) (page : Nat) : Nat :=
  Bytes.toNumber ((List.range 4).map fun place => m.byte (page + place))

inductive Call where
  | addSlab (flags : ZoneFlags)
  | slabAllocate (slab size : Nat)
  | slabFree (slab addr : Nat)
  | allocatePages (flags : ZoneFlags) (count : Nat) (align : Option Nat)
  | freePages (addr : Nat)
  | write (addr : Nat) (bytes : List UInt8)

def Call.Writes (addr : Nat) : Call → Prop
  | .write start bytes => start ≤ addr ∧ addr < start + bytes.length
  | _ => False

structure Session where
  machine : Machine
  /-- Live requests for at most half a page. -/
  small : List SlabGrant
  /-- Live requests to slab allocators for more. -/
  large : List SlabGrant
  /-- Live blocks from the page allocator. -/
  direct : List Block

namespace Session

def withMachine (s : Session) (machine : Machine) : Session := { s with machine := machine }

def perform (s : Session) : Call → Except Fault Session
  | .addSlab flags =>
      return s.withMachine
        { s.machine with slabs := s.machine.slabs ++ [SlabAllocator.create flags] }
  | .slabAllocate slab size => do
      match ← (s.machine.slabAllocate slab size).outcome with
      | (some (.ok addr), machine) =>
          if size ≤ SizeClass.largest then
            return { s with machine := machine, small := ⟨slab, addr, size⟩ :: s.small }
          else
            return { s with machine := machine, large := ⟨slab, addr, size⟩ :: s.large }
      | (_, machine) => return s.withMachine machine
  | .slabFree slab addr => do
      match ← (s.machine.slabFree slab addr).outcome with
      | (some (.ok ()), machine) =>
          return { s with
            machine := machine
            small := s.small.filter fun g => g.addr ≠ addr
            large := s.large.filter fun g => g.addr ≠ addr }
      | (_, machine) => return s.withMachine machine
  | .allocatePages flags count align => do
      match ← (s.machine.allocatePages flags count align).outcome with
      | (.ok addr, machine) =>
          return { s with
            machine := machine
            direct := ⟨Frame.ofAddress addr, Nat.clog 2 count⟩ :: s.direct }
      | (.error _, machine) => return s.withMachine machine
  | .freePages addr => do
      match ← (s.machine.freePages addr).outcome with
      | (.ok (), machine) =>
          return { s with machine := machine, direct := s.direct.filter fun x => x.addr ≠ addr }
      | (.error _, machine) => return s.withMachine machine
  | .write addr bytes => return s.withMachine (s.machine.setBytes addr bytes)

def blocks (s : Session) : List Block := s.large.map SlabGrant.block ++ s.direct

def allocations (s : Session) : List Range :=
  s.small.map SlabGrant.object ++ s.blocks.map Block.range

def headers (s : Session) : List Range :=
  s.machine.slabPages.map fun page => ⟨page, SlabHeader.size⟩

/-- What clients may do: ask for anything and free any address, even a small object through another
slab allocator than the one it came from. But pages of a slab allocator are not freed past it, and a
client writes to a small object of its own, or to a block of its own in which no page comes to look
like a slab page. -/
def Allowed (s : Session) : Call → Prop
  | .freePages addr => addr ∉ s.machine.slabPages ∧ ∀ g ∈ s.large, g.addr ≠ addr
  | .write addr bytes =>
      (∃ g ∈ s.small, g.addr ≤ addr ∧ addr + bytes.length ≤ g.addr + g.room) ∨
        ∃ x ∈ s.blocks, x.addr ≤ addr ∧ addr + bytes.length ≤ x.addr + x.bytes ∧
          ∀ page, pageSize ∣ page → x.addr ≤ page → page < x.addr + x.bytes →
            (s.machine.setBytes addr bytes).leadingNumber page ≠ SlabHeader.validMagic
  | _ => True

structure Separated (s : Session) : Prop where
  apart : (s.allocations ++ s.headers).Pairwise Range.Apart
  small : ∀ g ∈ s.small, g.size ≤ g.room ∧ g.room ∣ g.addr ∧ ¬ pageSize ∣ g.addr
  zoned : ∀ g ∈ s.small, ∃ allocator, s.machine.slabs[g.slab]? = some allocator ∧
    ∃ z ∈ s.machine.zones, z.flags.intersects allocator.flags = true ∧
      z.range.base ≤ g.addr ∧ g.addr + g.room ≤ z.range.base + z.range.size
  housed : ∀ g ∈ s.small, g.addr / pageSize * pageSize ∈ s.machine.slabPages
  linked : ∀ allocator ∈ s.machine.slabs, ∀ cache ∈ allocator.caches.toList,
    (linkedPages s.machine.backing.memory cache.pageCount cache.firstPage).length = cache.pageCount

/-- Why a slab allocator does not free an address, and the error that says so. -/
inductive Refuses (s : Session) (slab addr : Nat) : SlabError → Prop
  | foreign (outside : ¬ s.machine.pages.Covers addr) : Refuses s slab addr .notAllocated
  | untracked (paged : pageSize ∣ addr) (absent : ∀ g ∈ s.large, g.slab = slab → g.addr ≠ addr) :
      Refuses s slab addr .notAllocated
  | headless (covered : s.machine.pages.Covers addr) (unpaged : ¬ pageSize ∣ addr)
      (elsewhere : addr / pageSize * pageSize ∉ s.machine.slabPages) :
      Refuses s slab addr (.corrupted (addr / pageSize * pageSize))
  | between {sizeClass : Nat} (unpaged : ¬ pageSize ∣ addr)
      (divided : s.machine.Divided (addr / pageSize * pageSize) sizeClass)
      (between : ¬ Slot (addr / pageSize * pageSize) sizeClass addr) :
      Refuses s slab addr .notSlabObject
  | unused {sizeClass : Nat} (divided : s.machine.Divided (addr / pageSize * pageSize) sizeClass)
      (slot : Slot (addr / pageSize * pageSize) sizeClass addr) (dead : ∀ g ∈ s.small, g.addr ≠ addr) :
      Refuses s slab addr .notAllocated

/-- What is live before and after a call has kept its bytes, but for those that the call stores. -/
def Keeps (s : Session) (call : Call) (next : Session) : Prop :=
  ∀ r ∈ s.allocations, r ∈ next.allocations → ∀ addr, r.Holds addr → ¬ call.Writes addr →
    next.machine.byte addr = s.machine.byte addr

/-- Sessions on zeroed memory that reaches all zones, after any calls that clients may make. -/
inductive Reached : Session → Prop
  | start {map next : MemoryMap} {translator : Translator} {config : ZoneConfig}
      {pages : PageAllocator} (built : map.Built)
      (created : (PageAllocator.create map translator config).outcome = .ok (.ok pages, next))
      (covered : ∀ z ∈ pages.zones.zones, ∀ addr, z.range.Holds addr →
        ∃ place, translator.toVirtual addr = .ok place) :
      Reached ⟨⟨next, ⟨pages, Memory.zeroed translator⟩, []⟩, [], [], []⟩
  | step {s next : Session} {call : Call} (reached : Reached s) (allowed : s.Allowed call)
      (performed : s.perform call = .ok next) : Reached next

end Session

end Machine

end ZonedMemory
