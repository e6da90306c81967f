import ZonedMemory.Proofs.Machine.Run
import ZonedMemory.Proofs.Slab.Usage

namespace ZonedMemory

/-!
Freeing through a slab allocator is exact: it ends the one allocation at the address, or it says why
there is none and leaves the machine as it was.
-/

namespace SlabAllocator

variable {a : SlabAllocator} {own pages : List SlabPage} {large : List LargeAllocation}
  {k after : Backing} {others : List Block} {sizeClass : Nat}

theorem usage_eq (keeps : a.Keeps own large) (part : own.Sublist pages) (stocked : k.Stocked pages others)
    (bound : sizeClass < SizeClass.count) :
    ∃ next, (a.usage sizeClass k).outcome =
        .ok ((own.filter fun p => p.sizeClass = sizeClass).foldl SlabUsage.count
          { objectSize := SizeClass.bytes sizeClass }, next) ∧
      Backing.Alike k next := by
  have cache : a.cache sizeClass = .ok a.caches[sizeClass] := by
    rw [SlabAllocator.cache, dif_pos bound]
  obtain ⟨next, counted, alike⟩ := SlabCache.usage_eq stocked (keeps.caches sizeClass bound)
    (List.filter_sublist.trans part)
  refine ⟨next, ?_, alike⟩
  rw [usage, Traced.outcome_bind, Traced.outcome_lift, cache, ok_bind, counted]

theorem usages_alike (keeps : a.Keeps own large) (part : own.Sublist pages)
    (stocked : k.Stocked pages others) (alike : Backing.Alike k after) (sizeClasses : List Nat) :
    (a.usages sizeClasses after).outcome.map Prod.fst = (a.usages sizeClasses k).outcome.map Prod.fst := by
  induction sizeClasses generalizing k after with
  | nil => rfl
  | cons sizeClass rest ih =>
      by_cases bound : sizeClass < SizeClass.count
      · obtain ⟨next, counted, later⟩ := usage_eq keeps part stocked bound
        obtain ⟨other, recounted, again⟩ := usage_eq keeps part (stocked.alike alike) bound
        have same := ih (stocked.alike later) (later.symm.trans (alike.trans again))
        simp only [usages, Traced.outcome_bind, counted, recounted, ok_bind, Traced.outcome_pure]
        cases found : (a.usages rest next).outcome <;> cases refound : (a.usages rest other).outcome <;>
          simp_all [Except.map]
      · have missing : a.cache sizeClass = .error (.outOfBounds SizeClass.count sizeClass) := by
          rw [SlabAllocator.cache, dif_neg bound]
        simp only [usages, usage, Traced.outcome_bind, Traced.outcome_lift, missing, error_bind]

end SlabAllocator

namespace Machine

/-- Nothing that can be read or asked for differs. -/
structure Unchanged (m after : Machine) : Prop where
  memory : after.backing.memory = m.backing.memory
  bytes : ∀ addr, after.byte addr = m.byte addr
  zones : after.zones = m.zones
  slabs : after.slabs = m.slabs
  usages : ∀ slab sizeClasses,
    (after.slabUsages slab sizeClasses).outcome.map Prod.fst =
      (m.slabUsages slab sizeClasses).outcome.map Prod.fst
  map : after.map = m.map

namespace Session

variable {s : Session} {pages : List SlabPage} {allocator : SlabAllocator} {k : Backing} {slab addr : Nat}

/-- One allocation of the slab allocator at the address has ended, and nothing else. -/
def Ends (s : Session) (slab addr : Nat) (next : Session) : Prop :=
  ∃ g, (g.slab = slab ∧ g.addr = addr) ∧
    (s.small ++ s.large).Perm (g :: (next.small ++ next.large)) ∧ next.direct = s.direct

theorem perm_cons_filter {grants : List SlabGrant} {g : SlabGrant}
    (distinct : (grants.map SlabGrant.addr).Nodup) (member : g ∈ grants) :
    grants.Perm (g :: grants.filter fun h => h.addr ≠ g.addr) := by
  induction grants with
  | nil => cases member
  | cons h rest ih =>
      rw [List.map_cons, List.nodup_cons] at distinct
      obtain ⟨unique, distinct⟩ := distinct
      rcases List.mem_cons.mp member with rfl | later
      · have others : (rest.filter fun h => h.addr ≠ g.addr) = rest := by
          refine List.filter_eq_self.mpr fun h listed => decide_eq_true fun same => ?_
          exact unique (same ▸ List.mem_map_of_mem listed)
        rw [List.filter_cons_of_neg (by simp), others]
      · have different : h.addr ≠ g.addr := fun same => unique (same ▸ List.mem_map_of_mem later)
        rw [List.filter_cons_of_pos (by simpa using different)]
        exact ((ih distinct later).cons h).trans (.swap ..)

namespace Sound

theorem unchanged (sound : s.Sound pages) (alike : Backing.Alike s.machine.backing k) :
    s.machine.Unchanged { s.machine with backing := k } where
  memory := alike.memory
  bytes addr := by
    have records : k.pages.recordByte? addr = s.machine.backing.pages.recordByte? addr := by
      simp only [PageAllocator.recordByte?, PageAllocator.recordAt?, alike.kin.metadata, alike.zones]
    simp only [byte, Machine.pages, records, alike.memory]
  zones := alike.zones
  slabs := rfl
  usages slab sizeClasses := by
    cases found : s.machine.slabs[slab]? with
    | none => simp only [slabUsages, found, Traced.outcome_pure, Except.map]
    | some allocator =>
        have same := SlabAllocator.usages_alike (sound.slabs slab allocator found) List.filter_sublist
          sound.stocked alike sizeClasses
        simp only [slabUsages, found, Traced.outcome_bind, Traced.outcome_pure]
        cases before : (allocator.usages sizeClasses s.machine.backing).outcome <;>
          cases after : (allocator.usages sizeClasses k).outcome <;> simp_all [Except.map]
  map := rfl

theorem small_unpaged {g : SlabGrant} (sound : s.Sound pages) (live : g ∈ s.small) : ¬ pageSize ∣ g.addr :=
  (sound.separated.small g live).2.2

theorem small_slot {g : SlabGrant} {sizeClass : Nat} (sound : s.Sound pages) (live : g ∈ s.small)
    (divided : s.machine.Divided (g.addr / pageSize * pageSize) sizeClass) :
    Slot (g.addr / pageSize * pageSize) sizeClass g.addr := by
  obtain ⟨p, member, serves⟩ := sound.served g live
  have own := sound.divided member
  have start := serves.slot.page_eq own.small (sound.laid.placed member).paged
  rw [start] at divided ⊢
  rw [SizeClass.bytes_inj (divided.objectSize.symm.trans own.objectSize)]
  exact serves.slot

theorem small_covered {g : SlabGrant} (sound : s.Sound pages) (live : g ∈ s.small) :
    s.machine.pages.Covers g.addr := by
  apply sound.allocation_covers (r := g.object) (List.mem_append_left _ (List.mem_map_of_mem live))
  exact ⟨Nat.le_refl _, Nat.lt_add_of_pos_right (Nat.two_pow_pos _)⟩

theorem large_covered {g : SlabGrant} (sound : s.Sound pages) (live : g ∈ s.large) :
    s.machine.pages.Covers g.addr := by
  rw [← sound.large_block_addr live]
  exact sound.allocator.covers (List.mem_append_right _ (block_of_large live)) (Nat.le_refl _)
    (Nat.lt_add_of_pos_right g.block.bytes_pos)

theorem refuses_dead {reason : SlabError} (sound : s.Sound pages) (refuses : s.Refuses slab addr reason) :
    ∀ g ∈ s.small ++ s.large, g.slab = slab → g.addr ≠ addr := by
  rintro g live own rfl
  rcases List.mem_append.mp live with small | large
  · cases refuses with
    | foreign outside => exact outside (sound.small_covered small)
    | untracked paged absent => exact sound.small_unpaged small paged
    | headless covered unpaged elsewhere => exact elsewhere (sound.separated.housed g small)
    | between unpaged divided between => exact between (sound.small_slot small divided)
    | unused divided slot dead => exact dead g small rfl
  · have paged := (sound.held g large).1
    cases refuses with
    | foreign outside => exact outside (sound.large_covered large)
    | untracked paged absent => exact absent g large own rfl
    | headless covered unpaged elsewhere => exact unpaged paged
    | between unpaged divided between => exact unpaged paged
    | unused divided slot dead => exact slot.not_paged divided.small (Nat.dvd_mul_left ..) paged

theorem freed_ends (sound : s.Sound pages) (next : Session)
    (live : (∃ g ∈ s.small, g.addr = addr) ∨ ∃ g ∈ s.large, g.slab = slab ∧ g.addr = addr)
    (own : ∀ g ∈ s.small, g.addr = addr → g.slab = slab)
    (small : next.small = s.small.filter fun g => g.addr ≠ addr)
    (large : next.large = s.large.filter fun g => g.addr ≠ addr) (direct : next.direct = s.direct) :
    s.Ends slab addr next := by
  rw [Ends, small, large]
  rcases live with ⟨g, live, rfl⟩ | ⟨g, live, holder, rfl⟩
  · refine ⟨g, ⟨own g live rfl, rfl⟩, ?_, direct⟩
    rw [sound.large_filter (sound.small_unpaged live)]
    exact (perm_cons_filter sound.distinct live).append_right s.large
  · refine ⟨g, ⟨holder, rfl⟩, ?_, direct⟩
    rw [sound.small_filter (sound.held g live).1]
    exact ((perm_cons_filter sound.large_distinct live).append_left s.small).trans List.perm_middle

end Sound

/-- A slab allocator frees an address just when an allocation of its own is live there, which alone
ends. Any other address is refused for a reason that holds, and nothing changes. -/
theorem slabFree_exact (reached : Reached s) (found : s.machine.slabs[slab]? = some allocator)
    (own : ∀ g ∈ s.small, g.addr = addr → g.slab = slab) :
    ∃ answer next, (s.machine.slabFree slab addr).outcome = .ok (some answer, next.machine) ∧
      s.perform (.slabFree slab addr) = .ok next ∧
      (answer = .ok () ↔ ∃ g ∈ s.small ++ s.large, g.slab = slab ∧ g.addr = addr) ∧
      (answer = .ok () → s.Ends slab addr next) ∧
      ∀ reason, answer = .error reason →
        s.Refuses slab addr reason ∧ s.machine.Unchanged next.machine ∧
          next = s.withMachine next.machine := by
  obtain ⟨pages, sound⟩ := reached.sound
  rcases sound.slabFree_cases found addr with
    ⟨changed, after, nextPages, answer, live, _, _⟩ | ⟨reason, after, answer, alike, refuses⟩
  · have ends := sound.freed_ends { s.withSlab slab changed after with
      small := s.small.filter fun g => g.addr ≠ addr
      large := s.large.filter fun g => g.addr ≠ addr } live own rfl rfl rfl
    refine ⟨.ok (), _, ?_, perform_slabFree_ok found answer, iff_of_true rfl ?_, fun _ => ends,
      fun reason same => ?_⟩
    · rw [slabFree_eq found, answer]
      rfl
    · rcases live with ⟨g, live, start⟩ | ⟨g, live, held⟩
      · exact ⟨g, List.mem_append_left _ live, own g live start, start⟩
      · exact ⟨g, List.mem_append_right _ live, held⟩
    · cases same
  · have refused : (.error reason : Except SlabError Unit) ≠ .ok () := by simp
    refine ⟨.error reason, _, ?_, perform_slabFree_error found answer, iff_of_false refused fun held => ?_,
      fun freed => absurd freed refused, fun other same => ?_⟩
    · rw [slabFree_eq found, answer, ok_bind, setSlab_self found]
      rfl
    · obtain ⟨g, live, held⟩ := held
      exact sound.refuses_dead refuses g live held.1 held.2
    · cases same
      exact ⟨refuses, sound.unchanged alike, rfl⟩

theorem slabFree_exact_eight : ∃ (s : Session) (g : SlabGrant) (allocator : SlabAllocator),
    (Reached s ∧ s.small = [g] ∧ s.machine.slabs[g.slab]? = some allocator ∧
      ∀ h ∈ s.small, h.addr = g.addr → h.slab = g.slab) ∧
    ∃ next, (s.machine.slabFree g.slab g.addr).outcome = .ok (some (.ok ()), next.machine) ∧
      s.Ends g.slab g.addr next := by
  obtain ⟨s, reached, lengths⟩ := oneOfEach_reached
  obtain ⟨g, only⟩ := List.length_eq_one_iff.mp lengths.1
  have live : g ∈ s.small := only ▸ List.mem_singleton_self g
  obtain ⟨pages, sound⟩ := reached.sound
  obtain ⟨allocator, found, _⟩ := sound.separated.zoned g live
  have own : ∀ h ∈ s.small, h.addr = g.addr → h.slab = g.slab := by
    intro h listed _
    rw [only] at listed
    rw [List.mem_singleton.mp listed]
  obtain ⟨answer, next, freed, _, exactly, ends, _⟩ := slabFree_exact reached found own
  have done := exactly.mpr ⟨g, List.mem_append_left _ live, rfl, rfl⟩
  exact ⟨s, g, allocator, ⟨reached, only, found, own⟩, next, done ▸ freed, ends done⟩

end Session

end Machine

end ZonedMemory
