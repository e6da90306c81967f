import ZonedMemory.Proofs.PageAllocator.Zones

namespace ZonedMemory.PageAllocator

/-!
Runs of the page allocator. A session keeps, for every block handed out and not given back, what was
asked for when it was handed out.
-/

inductive Call where
  | allocate (flags : ZoneFlags) (pages : Nat)
  | allocateAligned (flags : ZoneFlags) (pages align : Nat)
  | free (addr : Nat)

structure Grant where
  block : Block
  flags : ZoneFlags
  align : Nat

structure Session where
  allocator : PageAllocator
  /-- The blocks handed out and not given back, the latest first. -/
  live : List Grant

namespace Session

/-- The ledger gains the block of the order for so many pages at the address handed out. -/
def grant (s : Session) (flags : ZoneFlags) (pages align : Nat)
    (result : Except AllocError Nat × PageAllocator) : Except Fault Session := do
  match result with
  | (.ok addr, allocator) =>
      let order ← Order.ofPages pages
      return ⟨allocator, ⟨⟨Frame.ofAddress addr, order⟩, flags, align⟩ :: s.live⟩
  | (.error _, allocator) => return ⟨allocator, s.live⟩

def perform (s : Session) : Call → Except Fault Session
  | .allocate flags pages => do
      s.grant flags pages pageSize (← (s.allocator.allocate flags pages).outcome)
  | .allocateAligned flags pages align => do
      s.grant flags pages align (← (s.allocator.allocateAligned flags pages align).outcome)
  | .free addr => do
      match ← (s.allocator.free addr).outcome with
      | (.ok (), allocator) => return ⟨allocator, s.live.filter fun g => g.block.addr ≠ addr⟩
      | (.error _, allocator) => return ⟨allocator, s.live⟩

def run (s : Session) (calls : List Call) : Except Fault Session := calls.foldlM perform s

/-- What clients of the page allocator may rely on. -/
structure Safe (s : Session) : Prop where
  apart : s.live.Pairwise fun g h => g.block.Apart h.block
  clear : ∀ g ∈ s.live, s.allocator.metadata.base + s.allocator.metadata.size ≤ g.block.addr ∨
    g.block.addr + g.block.bytes ≤ s.allocator.metadata.base
  matching : ∀ g ∈ s.live, ∃ z ∈ s.allocator.zones.zones, z.flags.intersects g.flags = true ∧
    z.range.base ≤ g.block.addr ∧ g.block.addr + g.block.bytes ≤ z.range.base + z.range.size
  /-- Blocks are aligned to their own size and to the power of two that an alignment rounds up to. -/
  aligned : ∀ g ∈ s.live, g.block.bytes ∣ g.block.addr ∧ 2 ^ Nat.clog 2 g.align ∣ g.block.addr
  counted : ∀ z ∈ s.allocator.zones.zones, z.freePages = z.buddy.freePages ∧
    z.freePages + ((s.live.filter fun g => z.Owns g.block).map fun g => 2 ^ g.block.order).sum =
      z.totalPages
  /-- An address can be freed when a live block starts there, and any other free changes no zone. -/
  freeable : ∀ addr, ∃ answer after, (s.allocator.free addr).outcome = .ok (answer, after) ∧
    (answer = .ok () ↔ ∃ g ∈ s.live, g.block.addr = addr) ∧
    (answer ≠ .ok () → after.zones.zones = s.allocator.zones.zones)

/-- The invariant: the allocator serves the blocks, and each grant is as it was asked for. -/
structure Sound (s : Session) : Prop where
  allocator : s.allocator.Sound (s.live.map Grant.block)
  granted : ∀ g ∈ s.live, 2 ^ Nat.clog 2 g.align ∣ g.block.addr ∧ s.allocator.Provides g.flags g.block

variable {s : Session} {after : PageAllocator} {x : Block} {flags : ZoneFlags} {pages align addr : Nat}

theorem Sound.kept (sound : s.Sound) (kin : Kin s.allocator after)
    (same : after.zones.zones = s.allocator.zones.zones) : Sound ⟨after, s.live⟩ :=
  ⟨sound.allocator.kin kin (same ▸ sound.allocator.serving),
    fun g member => (sound.granted g member).imp_right kin.provides⟩

theorem grant_sound (sound : s.Sound) (flags : ZoneFlags) (pages align : Nat) :
    ∃ result next, (s.allocator.allocateAligned flags pages align).outcome = .ok result ∧
      s.grant flags pages align result = .ok next ∧ next.Sound ∧ Kin s.allocator next.allocator := by
  rcases allocateAligned_sound sound.allocator flags pages align with
    ⟨x, after, answer, order, aligned, provides, kin, gained⟩ | ⟨reason, after, answer, same, kin⟩
  · have block : (⟨Frame.ofAddress x.addr, Nat.clog 2 pages⟩ : Block) = x := by
      rw [← order, Frame.ofAddress, x.addr_div]
    refine ⟨_, ⟨after, ⟨x, flags, align⟩ :: s.live⟩, answer, ?_, ⟨gained, fun g listed => ?_⟩, kin⟩
    · simp only [grant, Order.ofPages_eq, ok_bind, block, pure_eq_ok]
    · rcases List.mem_cons.mp listed with rfl | listed
      · exact ⟨aligned, kin.provides provides⟩
      · exact (sound.granted g listed).imp_right kin.provides
  · exact ⟨_, ⟨after, s.live⟩, answer, rfl, sound.kept kin same, kin⟩

theorem perform_sound (sound : s.Sound) (call : Call) :
    ∃ next, s.perform call = .ok next ∧ next.Sound ∧ Kin s.allocator next.allocator := by
  cases call with
  | allocate flags pages =>
      obtain ⟨result, next, answer, granted, after⟩ := grant_sound sound flags pages pageSize
      refine ⟨next, ?_, after⟩
      simp only [perform, PageAllocator.allocate, answer, ok_bind, granted]
  | allocateAligned flags pages align =>
      obtain ⟨result, next, answer, granted, after⟩ := grant_sound sound flags pages align
      refine ⟨next, ?_, after⟩
      simp only [perform, answer, ok_bind, granted]
  | free addr =>
      rcases free_sound sound.allocator addr with
        ⟨after, answer, _, kin, lost⟩ | ⟨reason, after, answer, _, same, kin⟩
      · refine ⟨⟨after, s.live.filter fun g => g.block.addr ≠ addr⟩, ?_, ⟨?_, fun g listed => ?_⟩, kin⟩
        · simp only [perform, answer, ok_bind, pure_eq_ok]
        · rw [List.filter_map] at lost
          exact lost
        · exact (sound.granted g (List.mem_filter.mp listed).1).imp_right kin.provides
      · refine ⟨⟨after, s.live⟩, ?_, sound.kept kin same, kin⟩
        simp only [perform, answer, ok_bind, pure_eq_ok]

theorem run_sound (calls : List Call) (sound : s.Sound) :
    ∃ last, s.run calls = .ok last ∧ last.Sound ∧ Kin s.allocator last.allocator := by
  induction calls generalizing s with
  | nil => exact ⟨s, rfl, sound, .refl _⟩
  | cons call rest ih =>
      obtain ⟨next, performed, sound, kin⟩ := perform_sound sound call
      obtain ⟨last, ran, sound, later⟩ := ih sound
      refine ⟨last, ?_, sound, kin.trans later⟩
      rw [run, List.foldlM_cons, performed]
      exact ran

theorem Sound.safe (sound : s.Sound) : s.Safe := by
  have inside : ∀ g ∈ s.live, ∀ z ∈ s.allocator.zones.zones, z.Owns g.block →
      z.range.base ≤ g.block.addr ∧ g.block.addr + g.block.bytes ≤ z.range.base + z.range.size :=
    fun g listed z member owns =>
      (sound.allocator.serving.sound z member).inside (List.mem_map_of_mem listed) owns
  refine ⟨List.pairwise_map.mp sound.allocator.serving.apart, fun g listed => ?_, fun g listed => ?_,
    fun g listed => ?_, fun z member => ?_, fun addr => ?_⟩
  · obtain ⟨_, z, member, _, owns⟩ := sound.granted g listed
    have bounds := inside g listed z member owns
    have := sound.allocator.housed.clear z member
    omega
  · obtain ⟨_, z, member, matching, owns⟩ := sound.granted g listed
    exact ⟨z, member, matching, inside g listed z member owns⟩
  · obtain ⟨aligned, z, member, _, owns⟩ := sound.granted g listed
    have natural := (sound.allocator.serving.sound z member).natural (List.mem_map_of_mem listed) owns
    exact ⟨Nat.mul_dvd_mul_right natural _, aligned⟩
  · have zone := sound.allocator.serving.sound z member
    have accounted := zone.settled.accounted
    rw [← zone.mirror, ← zone.totalPages, List.filter_map, List.map_map] at accounted
    exact ⟨zone.mirror, accounted⟩
  · rcases free_sound sound.allocator addr with
      ⟨after, answer, ⟨x, member, start⟩, _⟩ | ⟨reason, after, answer, dead, same, _⟩
    · obtain ⟨g, listed, rfl⟩ := List.mem_map.mp member
      exact ⟨_, after, answer, iff_of_true rfl ⟨g, listed, start⟩, fun other => absurd rfl other⟩
    · refine ⟨_, after, answer, iff_of_false (by simp) fun used => ?_, fun _ => same⟩
      obtain ⟨g, listed, start⟩ := used
      exact dead g.block (List.mem_map_of_mem listed) start

end Session

variable {m next : MemoryMap} {translator : Translator} {config : ZoneConfig} {a : PageAllocator}

theorem create_sound (built : m.Built)
    (created : (create m translator config).outcome = .ok (.ok a, next)) :
    a.Sound [] ∧ a.config = config ∧ ∀ z ∈ a.zones.zones, z.stats = {} := by
  simp only [create, Traced.outcome_bind] at created
  obtain ⟨⟨answer, recorded⟩, built', created⟩ := bind_eq_ok.mp created
  cases answer with
  | error reason => cases (Prod.mk.inj (Except.ok.inj created)).1
  | ok parts =>
      obtain ⟨zones, metadata⟩ := parts
      simp only [Traced.outcome_bind, Traced.outcome_report, ok_bind, Traced.outcome_pure] at created
      obtain rfl := Except.ok.inj (Prod.mk.inj (Except.ok.inj created)).1
      obtain ⟨serving, housed, uncounted⟩ := ZoneTable.build_sound built built'
      exact ⟨⟨serving, housed⟩, rfl, uncounted⟩

/-- However a page allocator came about and whatever is asked of it, every call returns, and the
blocks handed out are as asked for, apart from each other and from the page records, and can be
freed, each once. -/
theorem run_safe (built : m.Built)
    (created : (create m translator config).outcome = .ok (.ok a, next)) (calls : List Call) :
    ∃ s, Session.run ⟨a, []⟩ calls = .ok s ∧ s.Safe ∧ Kin a s.allocator := by
  obtain ⟨sound, _⟩ := create_sound built created
  obtain ⟨s, ran, sound, kin⟩ := Session.run_sound (s := ⟨a, []⟩) calls ⟨sound, by simp⟩
  exact ⟨s, ran, sound.safe, kin⟩

def eightPages : MemoryMap := MemoryMap.empty.set .usable ⟨[⟨4096, 32768⟩]⟩

theorem eightPages_built : eightPages.Built :=
  .insert .empty (show MemoryMap.empty.insert .usable ⟨4096, 32768⟩ = .ok (.ok (), eightPages) from rfl)

theorem eightPages_created :
    ∃ a next, (create eightPages (.directMap 0) {}).outcome = .ok (.ok a, next) := by
  have answers : ((create eightPages (.directMap 0) {}).outcome.toOption.bind
      fun made => made.1.toOption.map fun _ => true) = some true := by decide +kernel
  obtain ⟨made, created, answers⟩ := Option.bind_eq_some_iff.mp answers
  obtain ⟨a, answer, _⟩ := Option.map_eq_some_iff.mp answers
  obtain ⟨made, next⟩ := made
  obtain rfl := toOption_eq_some.mp answer
  exact ⟨a, next, toOption_eq_some.mp created⟩

theorem run_safe_eight :
    ∃ a next, eightPages.Built ∧
      (create eightPages (.directMap 0) {}).outcome = .ok (.ok a, next) ∧
      ∃ s, Session.run ⟨a, []⟩ [.allocateAligned .dma 3 16384, .allocate .normal 1, .free 16384] = .ok s ∧
        s.Safe ∧ Kin a s.allocator := by
  obtain ⟨a, next, created⟩ := eightPages_created
  exact ⟨a, next, eightPages_built, created, run_safe eightPages_built created _⟩

end ZonedMemory.PageAllocator
