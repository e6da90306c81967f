import ZonedMemory.Proofs.Machine.Slab

namespace ZonedMemory.Machine.Session

/-!
Whole pages in the hands of clients, from the page allocator itself or by way of a slab allocator's
table.
-/

variable {s : Session} {pages : List SlabPage} {x : Block} {g : SlabGrant} {k : Backing}
  {pageAllocator : PageAllocator} {allocator : SlabAllocator} {slab size addr : Nat}

theorem block_of_large (live : g ∈ s.large) : g.block ∈ s.blocks :=
  List.mem_append_left _ (List.mem_map_of_mem live)

theorem follows_pages {next : Session} (kin : PageAllocator.Kin s.machine.pages next.machine.pages)
    (memory : next.machine.backing.memory = s.machine.backing.memory) : s.Follows next where
  kin := kin
  kept _ _ _ place _ := by rw [memory]
  confined place _ := by rw [memory]

namespace Kept

theorem redirect {direct : List Block} (kept : s.Kept pages)
    (kin : PageAllocator.Kin s.machine.pages pageAllocator)
    (serves : pageAllocator.Sound
      (pages.map SlabPage.block ++ (s.large.map SlabGrant.block ++ direct))) :
    Kept { s.withMachine (s.machine.setPages pageAllocator) with direct := direct } pages where
  laid := kept.laid.exchange kin serves
  slabs := kept.slabs
  owned p member := by
    obtain ⟨allocator, found, provides⟩ := kept.owned p member
    exact ⟨allocator, found, kin.provides provides⟩
  held := kept.held

theorem not_slabPage (kept : s.Kept pages) {p : SlabPage} (member : p ∈ pages) (block : x ∈ s.blocks) :
    p.addr ≠ x.addr := by
  intro same
  have apart := kept.laid.other_apart member block
  have := pageSize_pos
  have := x.bytes_pos
  omega

theorem large_block_addr (kept : s.Kept pages) (live : g ∈ s.large) : g.block.addr = g.addr :=
  Nat.div_mul_cancel (kept.held g live).1

theorem large_filter (kept : s.Kept pages) (unpaged : ¬ pageSize ∣ addr) :
    (s.large.filter fun g => g.addr ≠ addr) = s.large := by
  refine List.filter_eq_self.mpr fun g live => decide_eq_true fun same => ?_
  exact unpaged (same ▸ (kept.held g live).1)

theorem freed_blocks (kept : s.Kept pages) (elsewhere : ∀ p ∈ pages, p.addr ≠ addr) :
    (pages.map SlabPage.block ++ s.blocks).filter (fun x => x.addr ≠ addr) =
      pages.map SlabPage.block ++ ((s.large.filter fun g => g.addr ≠ addr).map SlabGrant.block ++
        s.direct.filter fun x => x.addr ≠ addr) := by
  have slabs : (pages.map SlabPage.block).filter (fun x => x.addr ≠ addr) = pages.map SlabPage.block := by
    refine List.filter_eq_self.mpr fun x listed => decide_eq_true ?_
    obtain ⟨p, member, rfl⟩ := List.mem_map.mp listed
    rw [(kept.laid.block_live member).2]
    exact elsewhere p member
  have large : (s.large.map SlabGrant.block).filter (fun x => x.addr ≠ addr) =
      (s.large.filter fun g => g.addr ≠ addr).map SlabGrant.block := by
    rw [List.filter_map]
    refine congrArg _ (List.filter_congr fun g live => ?_)
    simp only [Function.comp, kept.large_block_addr live]
  rw [blocks, List.filter_append, List.filter_append, slabs, large]

theorem direct_ne_large (kept : s.Kept pages) (direct : x ∈ s.direct) (live : g ∈ s.large) :
    x.addr ≠ g.addr := by
  have apart := (List.pairwise_append.mp
    (List.pairwise_append.mp kept.laid.allocator.serving.apart).2.1).2.2
    g.block (List.mem_map_of_mem live) x direct
  rw [Block.apart_iff_addr, kept.large_block_addr live] at apart
  have := g.block.bytes_pos
  have := x.bytes_pos
  omega

theorem gain_direct (kept : s.Kept pages) (kin : PageAllocator.Kin s.machine.pages pageAllocator)
    (serves : pageAllocator.Sound (x :: (pages.map SlabPage.block ++ s.blocks))) :
    Kept { s.withMachine (s.machine.setPages pageAllocator) with direct := x :: s.direct } pages := by
  refine kept.redirect kin (serves.perm ?_)
  rw [blocks, ← List.append_assoc, ← List.append_assoc]
  exact List.perm_middle.symm

/-- The table of a slab allocator changes with the large allocations that are its own. -/
theorem retable {table : LargeTable} (kept : s.Kept pages)
    (found : s.machine.slabs[slab]? = some allocator)
    (kin : PageAllocator.Kin s.machine.pages pageAllocator) {large : List SlabGrant}
    (serves : pageAllocator.Sound
      (pages.map SlabPage.block ++ (large.map SlabGrant.block ++ s.direct)))
    (keeps : table.Keeps ((large.filter fun g => g.slab = slab).map SlabGrant.entry))
    (others : ∀ other, other ≠ slab →
      (large.filter fun g => g.slab = other) = s.large.filter fun g => g.slab = other)
    (held : ∀ g ∈ large, pageSize ∣ g.addr ∧ g.slab < s.machine.slabs.length) :
    Kept { s.withSlab slab { allocator with large := table }
        { s.machine.backing with pages := pageAllocator } with large := large } pages where
  laid := kept.laid.exchange kin serves
  slabs other changed here := by
    by_cases same : other = slab
    · subst same
      obtain rfl := Option.some.inj ((setSlab_here found).symm.trans here)
      exact ⟨(kept.slabs _ allocator found).caches, keeps⟩
    · change (s.machine.setSlab _ _ _).slabs[other]? = _ at here
      rw [setSlab_other same] at here
      rw [others other same]
      exact kept.slabs other changed here
  owned p member := by
    obtain ⟨held, here, provides⟩ := kept.owned p member
    have same : SlabAllocator.flags { allocator with large := table } = allocator.flags := rfl
    obtain ⟨after, found, flags⟩ :=
      setSlab_flags (k := { s.machine.backing with pages := pageAllocator }) found same here
    exact ⟨after, found, flags ▸ kin.provides provides⟩
  held g listed := by
    change _ ∧ g.slab < (s.machine.setSlab _ _ _).slabs.length
    rw [setSlab_length]
    exact held g listed

/-- A request for more than half a page is met with whole pages, or refused with nothing changed. -/
theorem allocateLarge_kept (kept : s.Kept pages) (found : s.machine.slabs[slab]? = some allocator)
    (size : Nat) :
    (∃ (start : Nat) (changed : SlabAllocator) (after : Backing),
      (allocator.allocateLarge size s.machine.backing).outcome = .ok (.ok start, changed, after) ∧
      Kept { s.withSlab slab changed after with large := ⟨slab, start, size⟩ :: s.large } pages ∧
      PageAllocator.Kin s.machine.pages after.pages ∧ after.memory = s.machine.backing.memory) ∨
    ∃ reason after, (allocator.allocateLarge size s.machine.backing).outcome =
        .ok (.error reason, allocator, after) ∧ Backing.Alike s.machine.backing after := by
  have keeps := (kept.slabs slab allocator found).large
  simp only [SlabAllocator.allocateLarge, Traced.outcome_ite]
  by_cases full : allocator.large.isFull = true
  · refine .inr ⟨.trackingFull, s.machine.backing, ?_, .refl _⟩
    simp only [if_pos full, Traced.outcome_bind, Traced.outcome_report, ok_bind, Traced.outcome_pure]
  have room : allocator.large.live < LargeTable.capacity := by
    have := keeps.live_le
    have : allocator.large.live ≠ LargeTable.capacity := fun same => full (beq_iff_eq.mpr same)
    omega
  rw [if_neg full, Traced.outcome_bind]
  rcases Backing.allocate_laid kept.laid allocator.flags (Word.divUp size pageSize) with
    ⟨x, pageAllocator, answer, order, _, kin, serves⟩ | ⟨reason, after, answer, alike⟩
  · obtain ⟨table, inserted, listed⟩ :=
      LargeTable.insert_keeps keeps room ⟨x.addr, Word.divUp size pageSize⟩
    have block : SlabGrant.block ⟨slab, x.addr, size⟩ = x := by
      rw [SlabGrant.block, Frame.ofAddress, x.addr_div, ← order]
    refine .inl ⟨x.addr, { allocator with large := table },
      { s.machine.backing with pages := pageAllocator }, ?_, ?_, kin, rfl⟩
    · simp only [answer, ok_bind, Traced.outcome_bind, Traced.outcome_lift, inserted,
        Traced.outcome_report, Traced.outcome_pure]
    · refine kept.retable found kin ?_ ?_ (fun other different => ?_) fun g listed => ?_
      · rw [List.map_cons, block]
        exact serves.perm List.perm_middle.symm
      · rw [List.filter_cons_of_pos (by simp)]
        exact listed
      · exact List.filter_cons_of_neg (by simpa using Ne.symm different)
      · rcases List.mem_cons.mp listed with rfl | listed
        · exact ⟨x.page_dvd_addr, (List.getElem?_eq_some_iff.mp found).1⟩
        · exact kept.held g listed
  · refine .inr ⟨.page reason, after, ?_, alike⟩
    simp only [answer, ok_bind, Traced.outcome_pure]

theorem large_distinct (kept : s.Kept pages) : (s.large.map SlabGrant.addr).Nodup := by
  have apart := (List.pairwise_append.mp
    (List.pairwise_append.mp kept.laid.allocator.serving.apart).2.1).1
  refine List.pairwise_map.mpr ((List.pairwise_map.mp apart).imp_of_mem ?_)
  intro g h left right apart same
  have start := kept.large_block_addr left
  have other := kept.large_block_addr right
  have := g.block.bytes_pos
  have := h.block.bytes_pos
  rw [Block.apart_iff_addr] at apart
  omega

theorem entries_distinct (kept : s.Kept pages) (slab : Nat) :
    (((s.large.filter fun g => g.slab = slab).map SlabGrant.entry).map LargeAllocation.addr).Nodup := by
  rw [List.map_map]
  exact kept.large_distinct.sublist (List.filter_sublist.map _)

/-- Whole pages are freed when the table has them; nothing else at a page start is. -/
theorem freeLarge_kept (kept : s.Kept pages) (found : s.machine.slabs[slab]? = some allocator)
    (addr : Nat) :
    (∃ (changed : SlabAllocator) (after : Backing),
      (allocator.freeLarge addr s.machine.backing).outcome = .ok (.ok (), changed, after) ∧
      (∃ g ∈ s.large, g.slab = slab ∧ g.addr = addr) ∧
      Kept { s.withSlab slab changed after with large := s.large.filter fun g => g.addr ≠ addr } pages ∧
      PageAllocator.Kin s.machine.pages after.pages ∧ after.memory = s.machine.backing.memory) ∨
    (allocator.freeLarge addr s.machine.backing).outcome =
        .ok (.error .notAllocated, allocator, s.machine.backing) ∧
      ∀ g ∈ s.large, g.slab = slab → g.addr ≠ addr := by
  have keeps := (kept.slabs slab allocator found).large
  simp only [SlabAllocator.freeLarge, Traced.outcome_bind, Traced.outcome_lift]
  by_cases held : ∃ g ∈ s.large, g.slab = slab ∧ g.addr = addr
  · obtain ⟨g, live, rfl, rfl⟩ := held
    have own : g.entry ∈ (s.large.filter fun h => h.slab = g.slab).map SlabGrant.entry :=
      List.mem_map_of_mem (List.mem_filter.mpr ⟨live, decide_eq_true rfl⟩)
    obtain ⟨table, removed, _, left⟩ := LargeTable.remove_listed keeps (kept.entries_distinct g.slab) own
    have block := block_of_large live
    have start := kept.large_block_addr live
    rcases PageAllocator.free_sound kept.laid.allocator g.addr with
      ⟨pageAllocator, freed, _, kin, serves⟩ | ⟨reason, _, _, dead, _⟩
    · rw [kept.freed_blocks fun p member => start ▸ kept.not_slabPage member block] at serves
      have directKept : s.direct.filter (fun x => x.addr ≠ g.addr) = s.direct :=
        List.filter_eq_self.mpr fun x direct => decide_eq_true (kept.direct_ne_large direct live)
      rw [directKept] at serves
      refine .inl ⟨{ allocator with large := table }, { s.machine.backing with pages := pageAllocator }, ?_,
        ⟨g, live, rfl, rfl⟩, kept.retable found kin serves ?_ (fun other different => ?_) ?_, kin, rfl⟩
      · change allocator.large.remove g.addr = _ at removed
        simp only [removed, ok_bind, Backing.free, Traced.outcome_bind, freed, Traced.outcome_report,
          Traced.outcome_pure]
      · rw [List.filter_map] at left
        rw [List.filter_comm]
        exact left
      · rw [List.filter_filter]
        refine List.filter_congr fun h listed => ?_
        by_cases own : h.slab = other
        · have elsewhere : h.addr ≠ g.addr := by
            intro same
            rw [List.inj_on_of_nodup_map kept.large_distinct listed live same] at own
            exact different own.symm
          simp [own, elsewhere]
        · simp [own]
      · exact fun h listed => kept.held h (List.mem_filter.mp listed).1
    · exact absurd start (dead g.block (List.mem_append_right _ block))
  · have absent : ∀ g ∈ s.large, g.slab = slab → g.addr ≠ addr :=
      fun g live own same => held ⟨g, live, own, same⟩
    have removed : allocator.large.remove addr = .ok (none, allocator.large) := by
      refine LargeTable.remove_absent keeps fun entry listed => ?_
      obtain ⟨g, member, rfl⟩ := List.mem_map.mp listed
      obtain ⟨live, own⟩ := List.mem_filter.mp member
      exact absent g live (of_decide_eq_true own)
    refine .inr ⟨?_, absent⟩
    simp only [removed, ok_bind, Traced.outcome_bind, Traced.outcome_report, Traced.outcome_pure]

end Kept

end ZonedMemory.Machine.Session
