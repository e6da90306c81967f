import ZonedMemory.Proofs.Machine.Run
import ZonedMemory.Proofs.PageAllocator.Statistics

namespace ZonedMemory

/-!
The counters of a machine's zones. A slab allocator changes zones through the page allocator only,
whatever its memory has come to hold; so the counters agree with the buddies as long as nobody else
goes past the page allocator.
-/

namespace Backing

variable {k middle after : Backing} {addr : Nat}

/-- The page allocator has been called, and anything may have become of the memory. -/
def Draws (k after : Backing) : Prop :=
  ∀ s : Account, s.allocator = k.pages → ∃ t : Account, s.Steps t ∧ t.allocator = after.pages

namespace Draws

theorem of_pages (same : after.pages = k.pages) : k.Draws after :=
  fun s known => ⟨s, .refl, known.trans same.symm⟩

theorem refl (k : Backing) : k.Draws k := .of_pages rfl

theorem trans (first : k.Draws middle) (rest : middle.Draws after) : k.Draws after := by
  intro s known
  obtain ⟨t, steps, known⟩ := first s known
  obtain ⟨u, later, known⟩ := rest t known
  exact ⟨u, steps.trans later, known⟩

theorem of_step (step : ∀ s : Account, s.allocator = k.pages →
    ∃ t : Account, s.Step t ∧ t.allocator = after.pages) : k.Draws after := by
  intro s known
  obtain ⟨t, taken, known⟩ := step s known
  exact ⟨t, .single taken, known⟩

end Draws

theorem zoneOf_draws (k : Backing) (addr : Nat) :
    (liftM (k.zoneOf addr) : Traced _).Yields fun result => k.Draws result.2 := by
  apply Traced.Yields.lift
  intro result computed
  obtain ⟨⟨zone, table⟩, answer, rest⟩ := bind_eq_ok.mp computed
  obtain rfl := Except.ok.inj rest
  apply Draws.of_step
  intro s known
  rw [← known] at answer ⊢
  exact ⟨_, .found answer, rfl⟩

theorem isPage_draws (k : Backing) (addr : Nat) :
    (liftM (k.isPage addr) : Traced _).Yields fun result => k.Draws result.2 := by
  apply Traced.Yields.lift
  intro result computed
  obtain ⟨aligned, _, rest⟩ := bind_eq_ok.mp computed
  split at rest
  · obtain ⟨⟨zone, next⟩, answer, rest⟩ := bind_eq_ok.mp rest
    obtain rfl := Except.ok.inj rest
    exact (k.zoneOf_draws addr).holds (zone, next) answer
  · obtain rfl := Except.ok.inj rest
    exact .refl k

theorem allocate_draws (k : Backing) (flags : ZoneFlags) (pages : Nat) :
    (k.allocate flags pages).Yields fun result => k.Draws result.2 := by
  constructor
  intro result computed
  obtain ⟨⟨answer, allocator⟩, asked, rest⟩ := Traced.bind_eq_ok.mp computed
  obtain rfl := Except.ok.inj rest
  apply Draws.of_step
  intro s known
  rw [← known] at asked
  cases answer with
  | ok addr => exact ⟨_, .granted asked, rfl⟩
  | error reason => exact ⟨_, .denied asked, rfl⟩

theorem free_draws (k : Backing) (addr : Nat) :
    (k.free addr).Yields fun result => k.Draws result.2 := by
  constructor
  intro result computed
  obtain ⟨⟨answer, allocator⟩, asked, rest⟩ := Traced.bind_eq_ok.mp computed
  obtain rfl := Except.ok.inj rest
  apply Draws.of_step
  intro s known
  rw [← known] at asked
  cases answer with
  | ok _ => exact ⟨_, .freed asked, rfl⟩
  | error reason => exact ⟨_, .refused asked, rfl⟩

end Backing

namespace SlabCache

/-- Walking along pages looks them up and calls nothing else, whoever visits them. -/
theorem walkFrom_draws {σ : Type} (objectSize : Nat)
    (visit : σ → Nat → SlabHeader → Traced (σ × Bool)) (steps link : Nat) (state : σ) (k : Backing) :
    (walkFrom objectSize visit steps link state k).Yields fun result => k.Draws result.2 := by
  induction steps generalizing link state k with
  | zero => exact .pure (.refl k)
  | succ steps ih =>
      have further : ∀ {next : Backing} (link : Nat) (state : σ), k.Draws next →
          (walkFrom objectSize visit steps link state next).Yields fun result => k.Draws result.2 :=
        fun link state before => (ih link state _).mono fun _ later => before.trans later
      rw [walkFrom]
      split
      · exact .pure (.refl k)
      · apply (k.isPage_draws link).bind
        intro found before
        obtain ⟨page, next⟩ := found
        cases page with
        | false => exact .step fun _ => .pure before
        | true =>
            apply Traced.Yields.step
            intro header
            split
            · apply Traced.Yields.step
              intro visited
              obtain ⟨state, stop⟩ := visited
              cases stop with
              | true => exact .pure before
              | false => exact further _ state before
            · exact .step fun _ => further _ state before

theorem grow_draws (c : SlabCache) (flags : ZoneFlags) (k : Backing) :
    (c.grow flags k).Yields fun result => k.Draws result.2.2 := by
  apply (k.allocate_draws flags 1).bind
  intro asked before
  obtain ⟨answer, next⟩ := asked
  cases answer with
  | error reason => exact .pure before
  | ok page =>
      exact .step fun _ => .step fun _ => .step fun _ => .step fun _ => .step fun _ => .step fun _ =>
        .step fun _ => .pure before

end SlabCache

namespace SlabAllocator

theorem takeObject_draws (page objectSize : Nat) (k : Backing) :
    (takeObject page objectSize k).Yields fun result => k.Draws result.2 := by
  apply Traced.Yields.step
  intro header
  apply Traced.Yields.step
  intro next
  dsimp only
  split
  all_goals
    apply Traced.Yields.step
    intro intact
    split
    all_goals exact .step fun _ => .step fun _ => .step fun _ => .pure (.of_pages rfl)

theorem allocateObject_draws (s : SlabAllocator) (sizeClass : Nat) (k : Backing) :
    (s.allocateObject sizeClass k).Yields fun result => k.Draws result.2.2 := by
  apply Traced.Yields.step
  intro cache
  apply (SlabCache.walkFrom_draws ..).bind
  intro found before
  obtain ⟨page, next⟩ := found
  cases page with
  | some page =>
      apply (takeObject_draws page cache.objectSize next).bind
      exact fun _ taken => .pure (before.trans taken)
  | none =>
      apply (cache.grow_draws s.flags next).bind
      intro grown later
      obtain ⟨answer, cache, grown⟩ := grown
      cases answer with
      | error reason => exact .pure (before.trans later)
      | ok page =>
          apply Traced.Yields.step
          intro changed
          apply (takeObject_draws page cache.objectSize grown).bind
          exact fun _ taken => .pure ((before.trans later).trans taken)

theorem allocateLarge_draws (s : SlabAllocator) (size : Nat) (k : Backing) :
    (s.allocateLarge size k).Yields fun result => k.Draws result.2.2 := by
  unfold allocateLarge
  split
  · exact .step fun _ => .pure (.refl k)
  · apply (k.allocate_draws s.flags _).bind
    intro asked before
    obtain ⟨answer, next⟩ := asked
    cases answer with
    | error reason => exact .pure before
    | ok addr =>
        apply Traced.Yields.step
        intro entered
        obtain ⟨answer, large⟩ := entered
        cases answer with
        | error reason => exact .pure before
        | ok _ => exact .step fun _ => .pure before

theorem allocate_draws (s : SlabAllocator) (size : Nat) (k : Backing) :
    (s.allocate size k).Yields fun result => k.Draws result.2.2 := by
  unfold allocate
  split
  · exact s.allocateLarge_draws size k
  · apply Traced.Yields.step
    intro sizeClass
    cases sizeClass with
    | error reason => exact .pure (.refl k)
    | ok sizeClass => exact s.allocateObject_draws sizeClass k

theorem freeLarge_draws (s : SlabAllocator) (addr : Nat) (k : Backing) :
    (s.freeLarge addr k).Yields fun result => k.Draws result.2.2 := by
  apply Traced.Yields.step
  intro removed
  obtain ⟨entry, large⟩ := removed
  cases entry with
  | none => exact .step fun _ => .pure (.refl k)
  | some entry =>
      apply (k.free_draws addr).bind
      intro asked before
      obtain ⟨answer, next⟩ := asked
      cases answer with
      | ok _ => exact .step fun _ => .pure before
      | error reason =>
          apply Traced.Yields.step
          intro _
          apply Traced.Yields.step
          intro entered
          obtain ⟨answer, large⟩ := entered
          cases answer with
          | error reason => exact .pure before
          | ok _ => exact .pure before

theorem freeObject_draws (addr : Nat) (k : Backing) :
    (freeObject addr k).Yields fun result => k.Draws result.2 := by
  apply Traced.Yields.step
  intro page
  apply Traced.Yields.step
  intro header
  apply Traced.Yields.step
  intro objectSize
  cases objectSize with
  | error reason => exact .pure (.refl k)
  | ok objectSize =>
      apply Traced.Yields.step
      intro holds
      dsimp only
      split
      · split
        all_goals
          apply Traced.Yields.step
          intro unused
          split
          · exact .step fun _ => .pure (.refl k)
          · exact .step fun _ => .step fun _ => .pure (.of_pages rfl)
      · exact .step fun _ => .pure (.refl k)

theorem free_draws (s : SlabAllocator) (addr : Nat) (k : Backing) :
    (s.free addr k).Yields fun result => k.Draws result.2.2 := by
  apply (k.zoneOf_draws addr).bind
  intro found before
  obtain ⟨zone, next⟩ := found
  cases zone with
  | none => exact .step fun _ => .pure before
  | some zone =>
      apply Traced.Yields.step
      intro paged
      split
      · exact (s.freeLarge_draws addr next).mono fun _ later => before.trans later
      · apply (freeObject_draws addr next).bind
        exact fun _ later => .pure (before.trans later)

theorem usage_draws (s : SlabAllocator) (sizeClass : Nat) (k : Backing) :
    (s.usage sizeClass k).Yields fun result => k.Draws result.2 :=
  .step fun _ => SlabCache.walkFrom_draws ..

theorem usages_draws (s : SlabAllocator) (sizeClasses : List Nat) (k : Backing) :
    (s.usages sizeClasses k).Yields fun result => k.Draws result.2 := by
  induction sizeClasses generalizing k with
  | nil => exact .pure (.refl k)
  | cons sizeClass rest ih =>
      apply (s.usage_draws sizeClass k).bind
      intro used before
      apply (ih used.2).bind
      exact fun _ later => .pure (before.trans later)

theorem listCaches_draws (s : SlabAllocator) (sizeClasses : List Nat) (k : Backing) :
    (s.listCaches sizeClasses k).Yields fun after => k.Draws after := by
  induction sizeClasses generalizing k with
  | nil => exact .pure (.refl k)
  | cons sizeClass rest ih =>
      apply (s.usage_draws sizeClass k).bind
      intro used before
      obtain ⟨usage, next⟩ := used
      have further : (s.listCaches rest next).Yields fun after => k.Draws after :=
        (ih next).mono fun _ later => before.trans later
      dsimp only
      split
      · exact further
      · exact .step fun _ => further

theorem list_draws (s : SlabAllocator) (k : Backing) :
    (s.list k).Yields fun after => k.Draws after := by
  apply Traced.Yields.step
  intro _
  apply (s.listCaches_draws _ k).bind
  exact fun _ before => .step fun _ => .step fun _ => .pure before

end SlabAllocator

namespace Machine

/-- A machine after some operation of a slab allocator. -/
inductive SlabStep (m : Machine) : Machine → Prop
  | allocate {slab size : Nat} {answer : Option (Except SlabError Nat)} {next : Machine}
      (performed : (m.slabAllocate slab size).outcome = .ok (answer, next)) : SlabStep m next
  | free {slab addr : Nat} {answer : Option (Except SlabError Unit)} {next : Machine}
      (performed : (m.slabFree slab addr).outcome = .ok (answer, next)) : SlabStep m next
  | usages {slab : Nat} {sizeClasses : List Nat} {answer : Option (List SlabUsage)} {next : Machine}
      (performed : (m.slabUsages slab sizeClasses).outcome = .ok (answer, next)) : SlabStep m next
  | list {slab : Nat} {answer : Option Unit} {next : Machine}
      (performed : (m.slabList slab).outcome = .ok (answer, next)) : SlabStep m next

/-- What a run comes to in which pages are allocated and freed by calls to the page allocator and to
slab allocators alone, with an account of what the page allocator handed out. What clients store in
memory, headers of slab pages included, is left open. -/
inductive Accounted : Machine → Account → Prop
  | start {map next : MemoryMap} {translator : Translator} {config : ZoneConfig} {pages : PageAllocator}
      (built : map.Built)
      (created : (PageAllocator.create map translator config).outcome = .ok (.ok pages, next))
      (memory : Memory) (slabs : List SlabAllocator) :
      Accounted ⟨next, ⟨pages, memory⟩, slabs⟩ ⟨pages, [], []⟩
  | call {m : Machine} {s t : Account} (accounted : Accounted m s) (step : s.Step t) :
      Accounted (m.setPages t.allocator) t
  | slab {m next : Machine} {s t : Account} (accounted : Accounted m s) (performed : m.SlabStep next)
      (steps : s.Steps t) (same : t.allocator = next.pages) : Accounted next t
  | store {m : Machine} {s : Account} (accounted : Accounted m s) (memory : Memory) :
      Accounted (m.setMemory memory) s
  | addSlab {m : Machine} {s : Account} (accounted : Accounted m s) (flags : ZoneFlags) :
      Accounted { m with slabs := m.slabs ++ [SlabAllocator.create flags] } s

variable {m next : Machine} {s : Account}

theorem slabAllocate_draws (m : Machine) (slab size : Nat) :
    (m.slabAllocate slab size).Yields fun result => m.backing.Draws result.2.backing := by
  unfold slabAllocate
  split
  · exact .pure (.refl _)
  · rename_i allocator _
    exact (allocator.allocate_draws size m.backing).bind fun _ drawn => .pure drawn

theorem slabFree_draws (m : Machine) (slab addr : Nat) :
    (m.slabFree slab addr).Yields fun result => m.backing.Draws result.2.backing := by
  unfold slabFree
  split
  · exact .pure (.refl _)
  · rename_i allocator _
    exact (allocator.free_draws addr m.backing).bind fun _ drawn => .pure drawn

theorem slabUsages_draws (m : Machine) (slab : Nat) (sizeClasses : List Nat) :
    (m.slabUsages slab sizeClasses).Yields fun result => m.backing.Draws result.2.backing := by
  unfold slabUsages
  split
  · exact .pure (.refl _)
  · rename_i allocator _
    exact (allocator.usages_draws sizeClasses m.backing).bind fun _ drawn => .pure drawn

theorem slabList_draws (m : Machine) (slab : Nat) :
    (m.slabList slab).Yields fun result => m.backing.Draws result.2.backing := by
  unfold slabList
  split
  · exact .pure (.refl _)
  · rename_i allocator _
    exact (allocator.list_draws m.backing).bind fun _ drawn => .pure drawn

theorem SlabStep.draws (step : m.SlabStep next) : m.backing.Draws next.backing := by
  cases step with
  | allocate performed => exact (m.slabAllocate_draws _ _).holds _ performed
  | free performed => exact (m.slabFree_draws _ _).holds _ performed
  | usages performed => exact (m.slabUsages_draws _ _).holds _ performed
  | list performed => exact (m.slabList_draws _).holds _ performed

theorem Accounted.kept (accounted : Accounted m s) : s.allocator = m.pages ∧ s.Kept := by
  induction accounted with
  | start built created memory slabs => exact ⟨rfl, Account.create_kept built created⟩
  | call _ step ih => exact ⟨rfl, step.kept ih.2⟩
  | slab _ _ steps same ih => exact ⟨same, steps.kept ih.2⟩
  | store _ memory ih => exact ih
  | addSlab _ flags ih => exact ih

/-- Along every run, and with any mix of calls that fail, the counters of a zone give its live blocks,
the pages that they take and the order of the latest block; and whatever a slab allocator does is some
calls to the page allocator, so that the run goes on with an account. -/
theorem accounted_agrees (accounted : Accounted m s) :
    (∀ z ∈ m.zones, z.Agrees s) ∧
      ∀ next, m.SlabStep next → ∃ t, s.Steps t ∧ t.allocator = next.pages ∧ Accounted next t := by
  obtain ⟨same, kept⟩ := accounted.kept
  constructor
  · intro z member
    exact kept.agrees (same ▸ member)
  · intro next step
    obtain ⟨t, steps, known⟩ := step.draws s same
    exact ⟨t, steps, known, accounted.slab step steps known⟩

/-- Two blocks have been handed out, and the first of them was given back. -/
theorem accounted_agrees_eight : ∃ m s, Accounted m s ∧ s.live.length = 1 ∧ s.given.length = 2 ∧
    (∀ z ∈ m.zones, z.Agrees s) ∧
      ∀ next, m.SlabStep next → ∃ t, s.Steps t ∧ t.allocator = next.pages ∧ Accounted next t := by
  have computed : ((PageAllocator.create PageAllocator.eightPages (.directMap 0) {}).outcome.toOption.bind
      fun made => made.1.toOption.bind fun pages =>
        (pages.allocateAligned .dma 2 0).outcome.toOption.bind fun first =>
          (first.2.allocateAligned .dma 1 0).outcome.toOption.bind fun second =>
            (second.2.free 8192).outcome.toOption.map fun third =>
              decide (first.1.toOption = some 8192 ∧ second.1.toOption = some 32768 ∧
                third.1.toOption = some ())) = some true := by
    decide +kernel
  obtain ⟨⟨answer, map⟩, created, computed⟩ := Option.bind_eq_some_iff.mp computed
  obtain ⟨pages, made, computed⟩ := Option.bind_eq_some_iff.mp computed
  obtain ⟨⟨first, a⟩, taken, computed⟩ := Option.bind_eq_some_iff.mp computed
  obtain ⟨⟨second, b⟩, again, computed⟩ := Option.bind_eq_some_iff.mp computed
  obtain ⟨⟨third, c⟩, freed, computed⟩ := Option.map_eq_some_iff.mp computed
  obtain ⟨firstGrant, secondGrant, ended⟩ := of_decide_eq_true computed
  obtain rfl := toOption_eq_some.mp made
  obtain rfl := toOption_eq_some.mp firstGrant
  obtain rfl := toOption_eq_some.mp secondGrant
  obtain rfl := toOption_eq_some.mp ended
  have start := Accounted.start PageAllocator.eightPages_built (toOption_eq_some.mp created)
    (Memory.zeroed (.directMap 0)) []
  have accounted := ((start.call (.granted (toOption_eq_some.mp taken))).call
    (.granted (toOption_eq_some.mp again))).call (.freed (toOption_eq_some.mp freed))
  exact ⟨_, _, accounted, rfl, rfl, accounted_agrees accounted⟩

end Machine

end ZonedMemory
