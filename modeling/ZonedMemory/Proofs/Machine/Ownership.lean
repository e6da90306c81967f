import ZonedMemory.Proofs.Machine.Free
import ZonedMemory.Proofs.Slab.Pose

namespace ZonedMemory

/-!
What a slab allocator goes by when it frees an address. Whole pages it looks up in a table of its own. For
an object it reads the header of the page around the address and nothing else, so it frees objects of other
slab allocators, and of pages that merely look like slab pages.
-/

namespace SlabAllocator

variable {k : Backing} {addr : Nat}

/-- Away from page starts it makes no difference which slab allocator is asked. -/
theorem free_unpaged (a other : SlabAllocator) (k : Backing) (unpaged : ¬ pageSize ∣ addr) :
    (other.free addr k).outcome = (a.free addr k).outcome >>= fun answer => .ok (answer.1, other, answer.2.2) := by
  have aligned : Address.isAligned addr pageSize = .ok false := by
    rw [Address.isAligned_page, decide_eq_false unpaged]
  simp only [free, Traced.outcome_bind, Traced.outcome_lift]
  cases k.zoneOf addr with
  | error fault => rfl
  | ok looked =>
      obtain ⟨zone, after⟩ := looked
      cases zone with
      | none => rfl
      | some zone =>
          simp only [ok_bind, Traced.outcome_bind, Traced.outcome_lift, aligned, Bool.false_eq_true, if_false,
            Traced.outcome_pure]
          cases (freeObject addr after).outcome <;> rfl

end SlabAllocator

namespace Machine

theorem slabFree_unpaged {m : Machine} {allocator own : SlabAllocator} {slab other addr : Nat}
    (here : m.slabs[slab]? = some own) (found : m.slabs[other]? = some allocator)
    (unpaged : ¬ pageSize ∣ addr) : (m.slabFree slab addr).outcome = (m.slabFree other addr).outcome := by
  have kept := own.free_unpaged own m.backing unpaged
  rw [slabFree_eq here, slabFree_eq found, own.free_unpaged allocator m.backing unpaged]
  cases answer : (own.free addr m.backing).outcome with
  | error fault => rfl
  | ok freed =>
      obtain ⟨result, changed, after⟩ := freed
      rw [answer] at kept
      obtain rfl : changed = own := (Prod.mk.inj (Prod.mk.inj (Except.ok.inj kept)).2).1
      simp only [ok_bind, setSlab_self here, setSlab_self found]

namespace Session

variable {s : Session} {pages : List SlabPage} {g : SlabGrant} {allocator own : SlabAllocator}
  {other addr : Nat}

namespace Sound

theorem eq_of_addr {h : SlabGrant} (sound : s.Sound pages) (live : g ∈ s.small) (listed : h ∈ s.small)
    (same : h.addr = g.addr) : h = g := List.inj_on_of_nodup_map sound.distinct listed live same

theorem small_crossed (sound : s.Sound pages) (found : s.machine.slabs[other]? = some allocator)
    (live : g ∈ s.small) :
    ∃ next, (s.machine.slabFree other g.addr).outcome = .ok (some (.ok ()), next.machine) ∧
      s.perform (.slabFree other g.addr) = .ok next ∧ s.Ends g.slab g.addr next ∧
      (s.machine.slabFree g.slab g.addr).outcome = (s.machine.slabFree other g.addr).outcome := by
  have unpaged := sound.small_unpaged live
  obtain ⟨own, here, _⟩ := sound.separated.zoned g live
  rcases sound.slabFree_cases here g.addr with ⟨changed, after, _, answer, _⟩ | ⟨_, _, _, _, refuses⟩
  · have crossed : (allocator.free g.addr s.machine.backing).outcome = .ok (.ok (), allocator, after) := by
      rw [own.free_unpaged allocator _ unpaged, answer, ok_bind]
    have freed : (s.machine.slabFree other g.addr).outcome =
        .ok (some (.ok ()), { s.machine with backing := after }) := by
      rw [slabFree_eq found, crossed, ok_bind, setSlab_self found]
    have performed := perform_slabFree_ok found crossed
    rw [withSlab, setSlab_self found] at performed
    have only : ∀ h ∈ s.small, h.addr = g.addr → h.slab = g.slab := by
      intro h listed same
      rw [sound.eq_of_addr live listed same]
    exact ⟨_, freed, performed, sound.freed_ends _ (.inl ⟨g, live, rfl⟩) only rfl rfl rfl,
      slabFree_unpaged here found unpaged⟩
  · exact absurd rfl (sound.refuses_dead refuses g (List.mem_append_left _ live) rfl)

theorem large_crossed (sound : s.Sound pages) (found : s.machine.slabs[other]? = some allocator)
    (live : g ∈ s.large) (different : other ≠ g.slab) :
    ∃ next, (s.machine.slabFree other g.addr).outcome = .ok (some (.error .notAllocated), next.machine) ∧
      s.perform (.slabFree other g.addr) = .ok next ∧ s.machine.Unchanged next.machine ∧
      next = s.withMachine next.machine := by
  have paged := (sound.held g live).1
  rcases sound.slabFree_cases found g.addr with
    ⟨_, _, _, _, ⟨h, listed, same⟩ | ⟨h, listed, owner, same⟩, _⟩ | ⟨reason, after, answer, alike, refuses⟩
  · exact absurd (same ▸ paged) (sound.small_unpaged listed)
  · have equal := List.inj_on_of_nodup_map sound.large_distinct listed live same
    exact absurd (equal ▸ owner).symm different
  · have cause : reason = .notAllocated := by
      cases refuses with
      | foreign outside => rfl
      | untracked aligned absent => rfl
      | headless covered unpaged elsewhere => exact absurd paged unpaged
      | between unpaged divided between => exact absurd paged unpaged
      | unused divided slot dead => rfl
    subst cause
    refine ⟨_, ?_, perform_slabFree_error found answer, sound.unchanged alike, rfl⟩
    rw [slabFree_eq found, answer, ok_bind, setSlab_self found]
    rfl

end Sound

/-- A slab allocator refuses whole pages that came from another one. An object of another one it frees just
as that one would. -/
theorem slabFree_crossed (reached : Reached s) (found : s.machine.slabs[other]? = some allocator)
    (different : other ≠ g.slab) (live : g ∈ s.small ++ s.large) :
    ∃ answer next, (s.machine.slabFree other g.addr).outcome = .ok (some answer, next.machine) ∧
      s.perform (.slabFree other g.addr) = .ok next ∧
      (g ∈ s.large → answer = .error .notAllocated ∧ s.machine.Unchanged next.machine ∧
        next = s.withMachine next.machine) ∧
      (g ∈ s.small → answer = .ok () ∧ s.Ends g.slab g.addr next ∧
        (s.machine.slabFree g.slab g.addr).outcome = (s.machine.slabFree other g.addr).outcome) := by
  obtain ⟨pages, sound⟩ := reached.sound
  rcases List.mem_append.mp live with small | large
  · obtain ⟨next, freed, performed, ends, same⟩ := sound.small_crossed found small
    refine ⟨.ok (), next, freed, performed, fun large => ?_, fun _ => ⟨rfl, ends, same⟩⟩
    exact absurd (sound.held g large).1 (sound.small_unpaged small)
  · obtain ⟨next, refused, performed, unchanged, ledger⟩ := sound.large_crossed found large different
    refine ⟨.error .notAllocated, next, refused, performed, fun _ => ⟨rfl, unchanged, ledger⟩, fun small => ?_⟩
    exact absurd (sound.held g large).1 (sound.small_unpaged small)

def twoSlabs : List Call := [.addSlab .dma, .addSlab .dma, .slabAllocate 0 2000, .slabAllocate 0 5000]

theorem twoSlabs_reached : ∃ (s : Session) (g h : SlabGrant) (allocator : SlabAllocator), Reached s ∧
    s.machine.slabs[1]? = some allocator ∧ (s.small = [g] ∧ 1 ≠ g.slab) ∧ s.large = [h] ∧ 1 ≠ h.slab := by
  have computed : ((eightPagesAfter twoSlabs).map fun s => decide ((s.machine.slabs.length = 2 ∧
      s.small.map SlabGrant.slab = [0]) ∧ s.large.map SlabGrant.slab = [0])) = some true := by
    decide +kernel
  obtain ⟨s, after, found⟩ := Option.map_eq_some_iff.mp computed
  obtain ⟨⟨two, small⟩, large⟩ := of_decide_eq_true found
  obtain ⟨g, onlySmall, slab⟩ := List.map_eq_singleton_iff.mp small
  obtain ⟨h, onlyLarge, largeSlab⟩ := List.map_eq_singleton_iff.mp large
  refine ⟨s, g, h, s.machine.slabs[1], eightPagesAfter_reached (fun call member t => ?_) after,
    List.getElem?_eq_getElem _, ⟨onlySmall, by omega⟩, onlyLarge, by omega⟩
  simp only [twoSlabs, List.mem_cons, List.not_mem_nil, or_false] at member
  rcases member with rfl | rfl | rfl | rfl <;> exact trivial

theorem slabFree_crossed_eight : ∃ (s : Session) (g h : SlabGrant) (allocator : SlabAllocator),
    (Reached s ∧ s.machine.slabs[1]? = some allocator ∧ (1 ≠ g.slab ∧ g ∈ s.small ++ s.large) ∧
      1 ≠ h.slab ∧ h ∈ s.small ++ s.large) ∧
    (∃ next : Session, (s.machine.slabFree 1 g.addr).outcome = .ok (some (.ok ()), next.machine) ∧
      s.Ends g.slab g.addr next) ∧
    ∃ next : Session, (s.machine.slabFree 1 h.addr).outcome = .ok (some (.error .notAllocated), next.machine) ∧
      s.machine.Unchanged next.machine := by
  obtain ⟨s, g, h, allocator, reached, found, ⟨small, foreign⟩, large, largeForeign⟩ := twoSlabs_reached
  have object : g ∈ s.small := small ▸ List.mem_singleton_self g
  have block : h ∈ s.large := large ▸ List.mem_singleton_self h
  obtain ⟨answer, next, freed, _, _, ends⟩ :=
    slabFree_crossed reached found foreign (List.mem_append_left _ object)
  obtain ⟨refusal, later, refused, _, unchanged, _⟩ :=
    slabFree_crossed reached found largeForeign (List.mem_append_right _ block)
  obtain ⟨rfl, ended, _⟩ := ends object
  obtain ⟨rfl, same, _⟩ := unchanged block
  exact ⟨s, g, h, allocator, ⟨reached, found, ⟨foreign, List.mem_append_left _ object⟩, largeForeign,
    List.mem_append_right _ block⟩, ⟨next, freed, ended⟩, later, refused, same⟩

/-- So allocations are not safe from other slab allocators. -/
theorem not_all_crossed_refused : ¬ ∀ (s : Session) (g : SlabGrant) (other : Nat) (allocator : SlabAllocator),
    Reached s → s.machine.slabs[other]? = some allocator → other ≠ g.slab → g ∈ s.small ++ s.large →
    ∃ (reason : SlabError) (next : Session), (s.machine.slabFree other g.addr).outcome =
        .ok (some (.error reason), next.machine) ∧
      s.perform (.slabFree other g.addr) = .ok next ∧ g ∈ next.small ++ next.large ∧
      s.machine.Unchanged next.machine := by
  intro refuses
  obtain ⟨s, g, h, allocator, reached, found, ⟨small, foreign⟩, _⟩ := twoSlabs_reached
  have object : g ∈ s.small := small ▸ List.mem_singleton_self g
  obtain ⟨pages, sound⟩ := reached.sound
  obtain ⟨next, freed, _⟩ := sound.small_crossed found object
  obtain ⟨reason, later, refused, _⟩ :=
    refuses s g 1 allocator reached found foreign (List.mem_append_left _ object)
  cases freed.symm.trans refused

variable {memory : Memory} {slab : Nat}

namespace Sound

/-- Away from page starts the answer comes from the page around the address alone, whatever it holds. -/
theorem slabFree_page (sound : s.Sound pages) (found : s.machine.slabs[slab]? = some allocator)
    (translator : memory.translator = s.machine.backing.memory.translator)
    (covers : s.machine.pages.Covers addr) (unpaged : ¬ pageSize ∣ addr) :
    ∃ k, Backing.Alike (s.machine.setMemory memory).backing k ∧
      ((s.machine.setMemory memory).slabFree slab addr).outcome =
        ((SlabAllocator.freeObject addr k).outcome >>= fun answer =>
          .ok (some answer.1, { s.machine.setMemory memory with backing := answer.2 })) ∧
      k.pages.Sound (pages.map SlabPage.block ++ s.blocks) ∧ k.pages.Covers addr ∧
      ∀ place, k.pages.Covers place → k.memory.reach place = .ok () := by
  have here : (s.machine.setMemory memory).slabs[slab]? = some allocator := found
  have before : (s.machine.setMemory memory).backing.pages.Sound _ := sound.allocator
  obtain ⟨k, alike, answers⟩ := allocator.free_eq before addr
  rcases answers with ⟨uncovered, _⟩ | ⟨_, paged, _⟩ | ⟨_, _, asked⟩
  · exact absurd covers uncovered
  · exact absurd paged unpaged
  · refine ⟨k, alike, ?_, alike.sound before, alike.kin.covers covers, fun place inZone => ?_⟩
    · rw [slabFree_eq here, asked]
      cases (SlabAllocator.freeObject addr k).outcome with
      | error fault => rfl
      | ok answer => rw [ok_bind, ok_bind, ok_bind, setSlab_self here]
    · have same : k.memory = memory := alike.memory
      rw [same, Memory.reach_congr translator]
      exact sound.laid.reached place (alike.kin.symm.covers inZone)

theorem slabFree_posed (sound : s.Sound pages) (found : s.machine.slabs[slab]? = some allocator)
    (translator : memory.translator = s.machine.backing.memory.translator)
    (covers : s.machine.pages.Covers addr) (unpaged : ¬ pageSize ∣ addr)
    (poses : SlabAllocator.Poses memory (addr / pageSize * pageSize) addr) :
    ((s.machine.setMemory memory).slabFree slab addr).outcome = .error .addOverflow ∨
      ∃ k, ((s.machine.setMemory memory).slabFree slab addr).outcome =
          .ok (some (.ok ()), { s.machine.setMemory memory with backing := k }) ∧
        k.memory = SlabHeader.writeFreeList (memory.setNumber addr 8
          (SlabHeader.standing memory (addr / pageSize * pageSize)).freeList) (addr / pageSize * pageSize) addr
          ((SlabHeader.standing memory (addr / pageSize * pageSize)).freeCount + 1) := by
  obtain ⟨k, alike, asked, serves, inZone, reached⟩ := sound.slabFree_page found translator covers unpaged
  obtain rfl : memory = k.memory := alike.memory.symm
  rw [asked]
  generalize start : addr / pageSize * pageSize = page at poses ⊢
  rcases SlabAllocator.freeObject_posed serves reached inZone start.symm poses with
    faulted | ⟨after, freed, written⟩
  · rw [faulted]
    exact .inl rfl
  · refine .inr ⟨after, ?_, written⟩
    rw [freed, ok_bind]

end Sound

/-- Whatever the bytes of a page are and in whosever hands it is, a slab allocator refuses an address in it
and changes nothing just when the page does not look like a slab page with an object in use there. If it
does, the object is freed, unless a link stored in the page makes the test of it fault. -/
theorem slabFree_poses (reached : Reached s) (found : s.machine.slabs[slab]? = some allocator)
    (translator : memory.translator = s.machine.backing.memory.translator)
    (covers : s.machine.pages.Covers addr) (unpaged : ¬ pageSize ∣ addr) :
    (¬ SlabAllocator.Poses memory (addr / pageSize * pageSize) addr →
      ∃ reason k, ((s.machine.setMemory memory).slabFree slab addr).outcome =
          .ok (some (.error reason), { s.machine.setMemory memory with backing := k }) ∧
        Backing.Alike (s.machine.setMemory memory).backing k) ∧
    (SlabAllocator.Poses memory (addr / pageSize * pageSize) addr →
      ((s.machine.setMemory memory).slabFree slab addr).outcome = .error .addOverflow ∨
      ∃ k, ((s.machine.setMemory memory).slabFree slab addr).outcome =
          .ok (some (.ok ()), { s.machine.setMemory memory with backing := k }) ∧
        k.memory = SlabHeader.writeFreeList (memory.setNumber addr 8
          (SlabHeader.standing memory (addr / pageSize * pageSize)).freeList) (addr / pageSize * pageSize) addr
          ((SlabHeader.standing memory (addr / pageSize * pageSize)).freeCount + 1)) := by
  obtain ⟨pages, sound⟩ := reached.sound
  refine ⟨fun unposed => ?_, sound.slabFree_posed found translator covers unpaged⟩
  obtain ⟨k, alike, asked, serves, inZone, reached⟩ := sound.slabFree_page found translator covers unpaged
  have same : k.memory = memory := alike.memory
  obtain ⟨reason, refused⟩ := SlabAllocator.freeObject_unposed serves reached inZone rfl (same ▸ unposed)
  refine ⟨reason, k, ?_, alike⟩
  rw [asked, refused, ok_bind]

/-- One page is in the hands of a client, and the slab allocator has none. -/
theorem onePage_reached : ∃ (s : Session) (allocator : SlabAllocator), Reached s ∧
    s.machine.slabs = [allocator] ∧ s.machine.slabPages = [] ∧ s.direct = [⟨8, 0⟩] := by
  have computed : ((eightPagesAfter [.addSlab .dma, .allocatePages .dma 1 none]).map fun s =>
      decide ((s.machine.slabs.length = 1 ∧ s.machine.slabPages = []) ∧ s.direct = [⟨8, 0⟩])) = some true := by
    decide +kernel
  obtain ⟨s, after, found⟩ := Option.map_eq_some_iff.mp computed
  obtain ⟨⟨one, none⟩, direct⟩ := of_decide_eq_true found
  obtain ⟨allocator, only⟩ := List.length_eq_one_iff.mp one
  refine ⟨s, allocator, eightPagesAfter_reached (fun call member t => ?_) after, only, none, direct⟩
  simp only [List.mem_cons, List.not_mem_nil, or_false] at member
  rcases member with rfl | rfl <;> exact trivial

theorem onePage_forged : ∃ (s : Session) (allocator : SlabAllocator) (memory : Memory),
    (Reached s ∧ s.machine.slabs = [allocator] ∧ s.machine.slabPages = []) ∧
    memory.translator = s.machine.backing.memory.translator ∧
    (∀ place, place < 32768 ∨ 32768 + pageSize ≤ place →
      memory.byte place = s.machine.backing.memory.byte place) ∧
    s.machine.pages.Covers 32832 ∧ SlabAllocator.Poses memory 32768 32832 := by
  obtain ⟨s, allocator, reached, only, none, direct⟩ := onePage_reached
  obtain ⟨pages, sound⟩ := reached.sound
  have block : (⟨8, 0⟩ : Block) ∈ pages.map SlabPage.block ++ s.blocks := by
    apply List.mem_append_right
    rw [blocks, direct]
    exact List.mem_append_right _ (List.mem_singleton_self _)
  have covers (place : Nat) (lower : 32768 ≤ place) (upper : place < 36864) : s.machine.pages.Covers place :=
    sound.allocator.covers block lower upper
  obtain ⟨memory, translator, outside, poses⟩ := SlabAllocator.exists_poses (show 3 < SizeClass.count by decide)
    (show 32768 + 2 * pageSize ≤ 2 ^ 64 by decide)
    (sound.laid.reached 32768 (covers 32768 (by decide) (by decide)))
    (show Slot 32768 3 32832 from ⟨0, by decide, rfl⟩)
  have header : SlabHeader.size ≤ pageSize := by decide
  exact ⟨s, allocator, memory, ⟨reached, only, none⟩, translator, fun place away => outside place (by omega),
    covers 32832 (by decide) (by decide), poses⟩

theorem slabFree_poses_eight : ∃ (s : Session) (allocator : SlabAllocator) (memory : Memory),
    (Reached s ∧ s.machine.slabs[0]? = some allocator ∧
      memory.translator = s.machine.backing.memory.translator ∧ s.machine.pages.Covers 32832 ∧
      ¬ pageSize ∣ 32832) ∧
    SlabAllocator.Poses memory 32768 32832 ∧
    (((s.machine.setMemory memory).slabFree 0 32832).outcome = .error .addOverflow ∨
      ∃ k, ((s.machine.setMemory memory).slabFree 0 32832).outcome =
        .ok (some (.ok ()), { s.machine.setMemory memory with backing := k })) := by
  obtain ⟨s, allocator, memory, ⟨reached, only, _⟩, translator, _, covers, poses⟩ := onePage_forged
  have found : s.machine.slabs[0]? = some allocator := by rw [only, List.getElem?_cons_zero]
  have unpaged : ¬ pageSize ∣ 32832 := by decide
  obtain ⟨_, freed⟩ := slabFree_poses reached found translator covers unpaged
  exact ⟨s, allocator, memory, ⟨reached, found, translator, covers, unpaged⟩, poses,
    (freed poses).imp_right fun after => after.imp fun k freed => freed.1⟩

/-- So a client that writes to a page of its own can have a slab allocator free an object in it. -/
theorem not_all_unlinked_refused : ¬ ∀ (s : Session) (allocator : SlabAllocator) (memory : Memory) (addr : Nat),
    Reached s → s.machine.slabs = [allocator] →
    memory.translator = s.machine.backing.memory.translator →
    (∀ place, place < addr / pageSize * pageSize ∨ addr / pageSize * pageSize + pageSize ≤ place →
      memory.byte place = s.machine.backing.memory.byte place) →
    s.machine.pages.Covers addr → ¬ pageSize ∣ addr → addr / pageSize * pageSize ∉ s.machine.slabPages →
    ∃ reason k, ((s.machine.setMemory memory).slabFree 0 addr).outcome =
        .ok (some (.error reason), { s.machine.setMemory memory with backing := k }) ∧
      Backing.Alike (s.machine.setMemory memory).backing k := by
  intro refuses
  obtain ⟨s, allocator, memory, ⟨reached, only, none⟩, translator, outside, covers, poses⟩ := onePage_forged
  obtain ⟨pages, sound⟩ := reached.sound
  have found : s.machine.slabs[0]? = some allocator := by rw [only, List.getElem?_cons_zero]
  have unpaged : ¬ pageSize ∣ 32832 := by decide
  obtain ⟨reason, k, refused, _⟩ := refuses s allocator memory 32832 reached only translator outside covers unpaged
    (by rw [none]; exact List.not_mem_nil)
  rcases sound.slabFree_posed found translator covers unpaged poses with faulted | ⟨_, freed, _⟩
  · cases faulted.symm.trans refused
  · cases freed.symm.trans refused

end Session

end Machine

end ZonedMemory
