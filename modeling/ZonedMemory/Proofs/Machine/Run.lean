import ZonedMemory.Proofs.Machine.Pages
import ZonedMemory.Proofs.PageAllocator.Run

namespace ZonedMemory.Machine

/-!
Runs of a machine. Every call that clients may make returns and keeps the invariant, so the bytes of
clients and of slab allocators stay apart in whatever order calls come.
-/

variable {m : Machine} {addr : Nat} {bytes : List UInt8}

/-- Where no page record stands, bytes are stored in plain memory. -/
theorem setBytes_eq (clear : ∀ place, addr ≤ place → place < addr + bytes.length →
      m.pages.recordAt? place = none) :
    m.setBytes addr bytes = m.setMemory (m.backing.memory.setBytes addr bytes) := by
  induction bytes generalizing m addr with
  | nil => rfl
  | cons value rest ih =>
      have none : m.pages.setRecordByte? addr value = none := by
        rw [PageAllocator.setRecordByte?, clear addr (Nat.le_refl _) (by simp), Option.map_none]
      have first : m.setByte addr value = m.setMemory (m.backing.memory.setByte addr value) := by
        rw [setByte, none]
      rw [setBytes, first, ih fun place lower upper => ?_]
      · rfl
      · exact clear place (by omega) (by rw [List.length_cons]; omega)

theorem byte_setMemory {memory : Memory} {place : Nat} (none : m.pages.recordByte? place = none) :
    (m.setMemory memory).byte place = memory.byte place := by
  change (m.pages.recordByte? place).getD _ = _
  rw [none, Option.getD_none]
  rfl

theorem create_keeps (flags : ZoneFlags) : (SlabAllocator.create flags).Keeps [] [] where
  caches sizeClass bound := by
    simp only [SlabAllocator.create, Vector.getElem_ofFn, List.filter_nil]
    exact ⟨Nat.shiftLeft_eq .., rfl, rfl⟩
  large := LargeTable.empty_keeps

namespace Session

variable {s next : Session} {pages nextPages : List SlabPage} {flags : ZoneFlags} {slab size : Nat}
  {allocator changed : SlabAllocator} {k : Backing}

/-- Between two sessions of one machine, what stays live keeps its bytes. -/
theorem Follows.keeps (follows : s.Follows next) (sound : s.Sound pages) (after : next.Sound nextPages)
    (call : Call) : s.Keeps call next := by
  intro r live still place holds _
  have covers := sound.allocation_covers live holds
  rw [sound.byte_eq covers, after.byte_eq (follows.kin.covers covers)]
  exact follows.kept r live still place holds

theorem Follows.of_alike {k : Backing} (follows : (s.withBacking k).Follows next)
    (alike : Backing.Alike s.machine.backing k) : s.Follows next where
  kin := alike.kin.trans follows.kin
  kept r live still place holds := by
    rw [← alike.memory]
    exact follows.kept r live still place holds
  confined place outside := by
    rw [← alike.memory]
    exact follows.confined place fun covers => outside (alike.kin.symm.covers covers)

theorem Follows.refl (s : Session) : s.Follows s := ⟨.refl _, fun _ _ _ _ _ => rfl, fun _ _ => rfl⟩

theorem perform_slabAllocate_none (absent : s.machine.slabs[slab]? = none) :
    s.perform (.slabAllocate slab size) = .ok s := by
  simp only [perform, slabAllocate, absent, Traced.outcome_pure, ok_bind, pure_eq_ok]
  rfl

theorem perform_slabAllocate_ok (found : s.machine.slabs[slab]? = some allocator)
    (answer : (allocator.allocate size s.machine.backing).outcome = .ok (.ok addr, changed, k)) :
    s.perform (.slabAllocate slab size) = .ok
      (if size ≤ SizeClass.largest then
        { s.withSlab slab changed k with small := ⟨slab, addr, size⟩ :: s.small }
      else { s.withSlab slab changed k with large := ⟨slab, addr, size⟩ :: s.large }) := by
  simp only [perform, slabAllocate_eq found, answer, ok_bind, pure_eq_ok]
  split <;> rfl

theorem perform_slabAllocate_error {reason : SlabError} (found : s.machine.slabs[slab]? = some allocator)
    (answer : (allocator.allocate size s.machine.backing).outcome = .ok (.error reason, allocator, k)) :
    s.perform (.slabAllocate slab size) = .ok (s.withBacking k) := by
  simp only [perform, slabAllocate_eq found, answer, ok_bind, setSlab_self found, pure_eq_ok]
  rfl

theorem perform_slabFree_none (absent : s.machine.slabs[slab]? = none) :
    s.perform (.slabFree slab addr) = .ok s := by
  simp only [perform, slabFree, absent, Traced.outcome_pure, ok_bind, pure_eq_ok]
  rfl

theorem perform_slabFree_ok (found : s.machine.slabs[slab]? = some allocator)
    (answer : (allocator.free addr s.machine.backing).outcome = .ok (.ok (), changed, k)) :
    s.perform (.slabFree slab addr) = .ok { s.withSlab slab changed k with
      small := s.small.filter fun g => g.addr ≠ addr
      large := s.large.filter fun g => g.addr ≠ addr } := by
  simp only [perform, slabFree_eq found, answer, ok_bind, pure_eq_ok]
  rfl

theorem perform_slabFree_error {reason : SlabError} (found : s.machine.slabs[slab]? = some allocator)
    (answer : (allocator.free addr s.machine.backing).outcome = .ok (.error reason, allocator, k)) :
    s.perform (.slabFree slab addr) = .ok (s.withBacking k) := by
  simp only [perform, slabFree_eq found, answer, ok_bind, setSlab_self found, pure_eq_ok]
  rfl

namespace Sound

theorem addSlab_sound (sound : s.Sound pages) (flags : ZoneFlags) :
    (s.withMachine { s.machine with slabs := s.machine.slabs ++ [SlabAllocator.create flags] }).Sound
      pages where
  laid := sound.laid
  formatted := sound.formatted
  slabs slab allocator found := by
    change (s.machine.slabs ++ [SlabAllocator.create flags])[slab]? = _ at found
    by_cases before : slab < s.machine.slabs.length
    · rw [List.getElem?_append_left before] at found
      exact sound.slabs slab allocator found
    · have last : slab = s.machine.slabs.length := by
        have := (List.getElem?_eq_some_iff.mp found).1
        rw [List.length_append, List.length_singleton] at this
        omega
      subst last
      rw [List.getElem?_concat_length] at found
      obtain rfl := Option.some.inj found
      have noPages : (pages.filter fun p => p.slab = s.machine.slabs.length) = [] := by
        refine List.filter_eq_nil_iff.mpr fun p member own => ?_
        obtain ⟨_, found, _⟩ := sound.owned p member
        rw [of_decide_eq_true own, List.getElem?_eq_none (Nat.le_refl _)] at found
        cases found
      have noLarge : (s.large.filter fun g => g.slab = s.machine.slabs.length) = [] := by
        refine List.filter_eq_nil_iff.mpr fun g live own => ?_
        exact absurd (sound.held g live).2 (by rw [of_decide_eq_true own]; exact Nat.lt_irrefl _)
      change (SlabAllocator.create flags).Keeps _ ((s.large.filter _).map SlabGrant.entry)
      rw [noPages, noLarge]
      exact create_keeps flags
  owned p member := by
    obtain ⟨allocator, found, provides⟩ := sound.owned p member
    have bound := (List.getElem?_eq_some_iff.mp found).1
    exact ⟨allocator, (List.getElem?_append_left bound).trans found, provides⟩
  served := sound.served
  taken := sound.taken
  distinct := sound.distinct
  held g live := by
    have held := sound.held g live
    refine ⟨held.1, ?_⟩
    change _ < (s.machine.slabs ++ _).length
    rw [List.length_append]
    omega

theorem allocatePages_sound (sound : s.Sound pages) (flags : ZoneFlags) (count : Nat)
    (align : Option Nat) :
    ∃ next, s.perform (.allocatePages flags count align) = .ok next ∧ next.Sound pages ∧
      s.Follows next := by
  have asked : (s.machine.allocatePages flags count align).outcome =
      (s.machine.pages.allocateAligned flags count (align.getD pageSize)).outcome >>=
        fun answer => .ok (answer.1, s.machine.setPages answer.2) := by
    cases align <;>
      simp only [Machine.allocatePages, PageAllocator.allocate, Option.getD, Traced.outcome_bind,
        Traced.outcome_pure]
  rcases PageAllocator.allocateAligned_sound sound.allocator flags count
      (align.getD pageSize) with
    ⟨x, after, answer, order, _, _, kin, serves⟩ | ⟨reason, after, answer, same, kin⟩
  · have block : (⟨Frame.ofAddress x.addr, Nat.clog 2 count⟩ : Block) = x := by
      rw [← order, Frame.ofAddress, x.addr_div]
    refine ⟨_, ?_, sound.unwritten (sound.gain_direct kin serves) rfl rfl, follows_pages kin rfl⟩
    simp only [perform, asked, answer, ok_bind, block, pure_eq_ok]
    rfl
  · have alike : Backing.Alike s.machine.backing { s.machine.backing with pages := after } :=
      ⟨rfl, same, kin⟩
    refine ⟨_, ?_, sound.alike alike, follows_alike alike⟩
    simp only [perform, asked, answer, ok_bind, pure_eq_ok]
    rfl

theorem freePages_sound (sound : s.Sound pages) (allowed : s.Allowed (.freePages addr)) :
    ∃ next, s.perform (.freePages addr) = .ok next ∧ next.Sound pages ∧ s.Follows next := by
  obtain ⟨notSlab, notLarge⟩ := allowed
  have elsewhere : ∀ p ∈ pages, p.addr ≠ addr := fun p member same =>
    notSlab (sound.mem_slabPages.mpr ⟨p, member, same⟩)
  rcases PageAllocator.free_sound sound.allocator addr with
    ⟨after, answer, _, kin, serves⟩ | ⟨reason, after, answer, _, same, kin⟩
  · have kept : (s.large.filter fun g => g.addr ≠ addr) = s.large :=
      List.filter_eq_self.mpr fun g live => decide_eq_true (notLarge g live)
    rw [sound.freed_blocks elsewhere, kept] at serves
    refine ⟨_, ?_, sound.unwritten (sound.redirect kin serves) rfl rfl, follows_pages kin rfl⟩
    simp only [perform, freePages, Traced.outcome_bind, answer, ok_bind, Traced.outcome_pure, pure_eq_ok]
    rfl
  · have alike : Backing.Alike s.machine.backing { s.machine.backing with pages := after } :=
      ⟨rfl, same, kin⟩
    refine ⟨_, ?_, sound.alike alike, follows_alike alike⟩
    simp only [perform, freePages, Traced.outcome_bind, answer, ok_bind, Traced.outcome_pure, pure_eq_ok]
    rfl

theorem write_inside {bytes : List UInt8} (allowed : s.Allowed (.write addr bytes)) :
    ∃ r ∈ s.allocations, r.base ≤ addr ∧ addr + bytes.length ≤ r.base + r.size := by
  rcases allowed with ⟨g, live, inside⟩ | ⟨x, block, lower, upper, _⟩
  · exact ⟨g.object, List.mem_append_left _ (List.mem_map_of_mem live), inside⟩
  · exact ⟨x.range, List.mem_append_right _ (List.mem_map_of_mem block), lower, upper⟩

theorem write_setBytes {bytes : List UInt8} (sound : s.Sound pages)
    (allowed : s.Allowed (.write addr bytes)) :
    s.machine.setBytes addr bytes =
      s.machine.setMemory (s.machine.backing.memory.setBytes addr bytes) := by
  obtain ⟨r, live, inside⟩ := write_inside allowed
  refine setBytes_eq fun place lower upper => ?_
  exact sound.allocator.recordAt?_eq_none (sound.allocation_covers live ⟨by omega, by omega⟩)

theorem write_plain {bytes : List UInt8} {page : Nat} (sound : s.Sound pages)
    (allowed : s.Allowed (.write addr bytes)) (paged : pageSize ∣ page)
    (covers : s.machine.pages.Covers page) (elsewhere : ∀ p ∈ pages, p.addr ≠ page) :
    (s.machine.backing.memory.setBytes addr bytes).number page 4 ≠ SlabHeader.validMagic := by
  have least : 4 ≤ pageSize := by decide
  have before := sound.stocked.plain page paged covers elsewhere
  -- a write to other pages leaves the number as it was
  have unchanged (outside : page + pageSize ≤ addr ∨ addr + bytes.length ≤ page) :
      (s.machine.backing.memory.setBytes addr bytes).number page 4 =
        s.machine.backing.memory.number page 4 :=
    Memory.number_congr fun place inside => Memory.byte_setBytes_outside (by omega)
  have written := sound.write_setBytes allowed
  rcases allowed with ⟨g, live, inside⟩ | ⟨x, block, lower, upper, marked⟩
  · obtain ⟨p, member, serves⟩ := sound.served g live
    have object := sound.object_inside member serves
    have apart := Address.paged_apart (sound.stocked.placed member).paged paged (elsewhere p member)
    rw [unchanged (by omega)]
    exact before
  · by_cases within : x.addr ≤ page ∧ page < x.addr + x.bytes
    · have leading := marked page paged within.1 within.2
      rw [written] at leading
      have same : leadingNumber (s.machine.setMemory (s.machine.backing.memory.setBytes addr bytes)) page =
          (s.machine.backing.memory.setBytes addr bytes).number page 4 := by
        unfold leadingNumber Memory.number Memory.bytesFrom
        congr 1
        refine List.map_congr_left fun place listed => ?_
        have := List.mem_range.mp listed
        have start := Nat.div_mul_cancel paged
        exact byte_setMemory (sound.allocator.recordByte?_eq_none
          (sound.allocator.covers_page covers (by omega) (by omega)))
      rwa [same] at leading
    · have outside : page + pageSize ≤ x.addr ∨ x.addr + x.bytes ≤ page := by
        by_cases same : page = x.addr
        · have := x.bytes_pos
          omega
        · have := Address.paged_apart paged x.page_dvd_addr same
          omega
      rw [unchanged (by omega)]
      exact before

/-- Clients write to their own bytes only, so every slab page is as its allocator left it. -/
theorem write_formatted {bytes : List UInt8} (sound : s.Sound pages)
    (allowed : s.Allowed (.write addr bytes)) {p : SlabPage} (member : p ∈ pages) :
    p.Formatted (s.machine.backing.memory.setBytes addr bytes) := by
  obtain ⟨r, live, inside⟩ := write_inside allowed
  refine (sound.formatted p member).congr fun place manages => ?_
  refine Memory.byte_setBytes_outside ?_
  by_contra written
  exact sound.allocation_unmanaged live ⟨by omega, by omega⟩ member manages

theorem write_sound {bytes : List UInt8} (sound : s.Sound pages)
    (allowed : s.Allowed (.write addr bytes)) :
    (s.withMachine (s.machine.setMemory (s.machine.backing.memory.setBytes addr bytes))).Sound pages where
  laid := by
    refine ⟨sound.allocator, fun place covers => ?_, sound.laid.placed, ?_, ?_⟩
    · rw [← sound.laid.reached place covers]
      exact Memory.reach_congr (Memory.translator_setBytes ..)
    · exact fun member => (sound.write_formatted allowed member).nextPage_eq
    · exact fun page paged covers elsewhere => sound.write_plain allowed paged covers elsewhere
  slabs := sound.slabs
  owned := sound.owned
  held := sound.held
  formatted p member := sound.write_formatted allowed member
  served := sound.served
  taken := sound.taken
  distinct := sound.distinct

theorem slabAllocate_sound (sound : s.Sound pages) (slab size : Nat) :
    ∃ next nextPages, s.perform (.slabAllocate slab size) = .ok next ∧ next.Sound nextPages ∧
      s.Follows next := by
  cases found : s.machine.slabs[slab]? with
  | none => exact ⟨s, pages, perform_slabAllocate_none found, sound, .refl s⟩
  | some allocator =>
      by_cases large : SizeClass.largest < size
      · have asked := allocator.allocate_large s.machine.backing large
        rcases sound.allocateLarge_kept found size with
          ⟨start, changed, after, answer, gained, kin, memory⟩ | ⟨reason, after, answer, alike⟩
        · have performed := perform_slabAllocate_ok found (asked.trans answer)
          rw [if_neg (Nat.not_le.mpr large)] at performed
          exact ⟨_, pages, performed, sound.unwritten gained memory rfl, follows_pages kin memory⟩
        · exact ⟨_, pages, perform_slabAllocate_error found (asked.trans answer), sound.alike alike,
            follows_alike alike⟩
      · have small := Nat.le_of_not_lt large
        have asked := allocator.allocate_small s.machine.backing small
        rcases sound.allocateObject_sound found rfl (SizeClass.holding_lt small) with
          ⟨object, changed, after, next, answer, gained, follows⟩ | ⟨reason, after, answer, alike⟩
        · have performed := perform_slabAllocate_ok found (asked.trans answer)
          rw [if_pos small] at performed
          exact ⟨_, next, performed, gained, follows⟩
        · exact ⟨_, pages, perform_slabAllocate_error found (asked.trans answer), sound.alike alike,
            follows_alike alike⟩

theorem small_filter (sound : s.Sound pages) (paged : pageSize ∣ addr) :
    (s.small.filter fun g => g.addr ≠ addr) = s.small := by
  refine List.filter_eq_self.mpr fun g live => decide_eq_true fun same => ?_
  exact (sound.separated.small g live).2.2 (same ▸ paged)

theorem divided (sound : s.Sound pages) {p : SlabPage} (member : p ∈ pages) :
    s.machine.Divided p.addr p.sizeClass where
  listed := sound.mem_slabPages.mpr ⟨p, member, rfl⟩
  small := (sound.laid.placed member).small
  objectSize := by
    rw [(sound.formatted p member).header]
    rfl

theorem refuses_of_denies {reason : SlabError} (sound : s.Sound pages)
    (covered : s.machine.pages.Covers addr) (unpaged : ¬ pageSize ∣ addr)
    (denies : Backing.Denies pages addr reason) : s.Refuses slab addr reason := by
  cases denies with
  | headless elsewhere =>
      apply Refuses.headless covered unpaged
      intro listed
      obtain ⟨p, member, start⟩ := sound.mem_slabPages.mp listed
      exact elsewhere p member start
  | between member start between =>
      rw [start] at between
      exact .between unpaged (start ▸ sound.divided member) between
  | unused member slot free =>
      have placed := sound.laid.placed member
      have start := slot.page_eq placed.small placed.paged
      refine .unused (start ▸ sound.divided member) (start ▸ slot) fun g live same => ?_
      obtain ⟨q, other, serves⟩ := sound.served g live
      obtain rfl := sound.slot_page member other slot (same ▸ serves.slot)
      exact serves.used (same ▸ free)

theorem slabFree_cases (sound : s.Sound pages) (found : s.machine.slabs[slab]? = some allocator)
    (addr : Nat) :
    (∃ (changed : SlabAllocator) (after : Backing) (nextPages : List SlabPage),
      (allocator.free addr s.machine.backing).outcome = .ok (.ok (), changed, after) ∧
      ((∃ g ∈ s.small, g.addr = addr) ∨ ∃ g ∈ s.large, g.slab = slab ∧ g.addr = addr) ∧
      Sound { s.withSlab slab changed after with
        small := s.small.filter fun g => g.addr ≠ addr
        large := s.large.filter fun g => g.addr ≠ addr } nextPages ∧
      s.Follows { s.withSlab slab changed after with
        small := s.small.filter fun g => g.addr ≠ addr
        large := s.large.filter fun g => g.addr ≠ addr }) ∨
    ∃ reason after, (allocator.free addr s.machine.backing).outcome =
        .ok (.error reason, allocator, after) ∧
      Backing.Alike s.machine.backing after ∧ s.Refuses slab addr reason := by
  obtain ⟨k, alike, answers⟩ := allocator.free_eq sound.allocator addr
  have later := sound.alike alike
  rcases answers with ⟨uncovered, answer⟩ | ⟨_, paged, asked⟩ | ⟨covered, unpaged, asked⟩
  · exact .inr ⟨_, k, answer, alike, .foreign uncovered⟩
  · rcases later.freeLarge_kept found addr with
      ⟨changed, after, answer, live, freed, kin, memory⟩ | ⟨answer, absent⟩
    · refine .inl ⟨changed, after, pages, asked.trans answer, .inr live, ?_, ?_⟩
      · rw [sound.small_filter paged]
        exact later.unwritten freed memory rfl
      · exact follows_pages (alike.kin.trans kin) (memory.trans alike.memory)
    · exact .inr ⟨_, k, asked.trans answer, alike, .untracked paged absent⟩
  · rcases later.freeObject_sound (alike.kin.covers covered) with
      ⟨after, next, answer, live, freed, follows⟩ | ⟨reason, answer, denies⟩
    · change (SlabAllocator.freeObject addr k).outcome = _ at answer
      rw [answer, ok_bind] at asked
      refine .inl ⟨allocator, after, next, asked, .inl live, ?_⟩
      rw [sound.large_filter unpaged, withSlab, setSlab_self found]
      exact ⟨freed, follows.of_alike alike⟩
    · change (SlabAllocator.freeObject addr k).outcome = _ at answer
      rw [answer, ok_bind] at asked
      exact .inr ⟨reason, k, asked, alike, sound.refuses_of_denies covered unpaged denies⟩

theorem slabFree_sound (sound : s.Sound pages) (slab addr : Nat) :
    ∃ next nextPages, s.perform (.slabFree slab addr) = .ok next ∧ next.Sound nextPages ∧
      s.Follows next := by
  cases found : s.machine.slabs[slab]? with
  | none => exact ⟨s, pages, perform_slabFree_none found, sound, .refl s⟩
  | some allocator =>
      rcases sound.slabFree_cases found addr with
        ⟨changed, after, nextPages, answer, _, freed, follows⟩ | ⟨reason, after, answer, alike, _⟩
      · exact ⟨_, nextPages, perform_slabFree_ok found answer, freed, follows⟩
      · exact ⟨_, pages, perform_slabFree_error found answer, sound.alike alike, follows_alike alike⟩

/-- Every call that clients may make returns, keeps the invariant, and changes no byte that stays live
but those that it stores itself. -/
theorem perform_sound {call : Call} (sound : s.Sound pages) (allowed : s.Allowed call) :
    ∃ next nextPages, s.perform call = .ok next ∧ next.Sound nextPages ∧ s.Keeps call next := by
  cases call with
  | addSlab flags =>
      have after := sound.addSlab_sound flags
      have follows : s.Follows (s.withMachine
          { s.machine with slabs := s.machine.slabs ++ [SlabAllocator.create flags] }) :=
        follows_pages (.refl _) rfl
      exact ⟨_, pages, rfl, after, follows.keeps sound after _⟩
  | slabAllocate slab size =>
      obtain ⟨next, nextPages, performed, after, follows⟩ := sound.slabAllocate_sound slab size
      exact ⟨next, nextPages, performed, after, follows.keeps sound after _⟩
  | slabFree slab addr =>
      obtain ⟨next, nextPages, performed, after, follows⟩ := sound.slabFree_sound slab addr
      exact ⟨next, nextPages, performed, after, follows.keeps sound after _⟩
  | allocatePages flags count align =>
      obtain ⟨next, performed, after, follows⟩ := sound.allocatePages_sound flags count align
      exact ⟨next, pages, performed, after, follows.keeps sound after _⟩
  | freePages addr =>
      obtain ⟨next, performed, after, follows⟩ := sound.freePages_sound allowed
      exact ⟨next, pages, performed, after, follows.keeps sound after _⟩
  | write addr bytes =>
      have after := sound.write_sound allowed
      have performed : s.perform (.write addr bytes) = .ok (s.withMachine
          (s.machine.setMemory (s.machine.backing.memory.setBytes addr bytes))) := by
        rw [perform, sound.write_setBytes allowed]
        rfl
      refine ⟨_, pages, performed, after, fun r live _ place holds unwritten => ?_⟩
      have covers := sound.allocation_covers live holds
      rw [sound.byte_eq covers, after.byte_eq covers]
      simp only [Call.Writes] at unwritten
      exact Memory.byte_setBytes_outside (by omega)

theorem start_sound {map next : MemoryMap} {translator : Translator} {config : ZoneConfig}
    {allocator : PageAllocator} (built : map.Built)
    (created : (PageAllocator.create map translator config).outcome = .ok (.ok allocator, next))
    (covered : ∀ z ∈ allocator.zones.zones, ∀ addr, z.range.Holds addr →
      ∃ place, translator.toVirtual addr = .ok place) :
    Sound ⟨⟨next, ⟨allocator, Memory.zeroed translator⟩, []⟩, [], [], []⟩ [] where
  laid := by
    refine ⟨(PageAllocator.create_sound built created).1, fun place covers => ?_, by simp, by simp,
      fun page _ _ _ => ?_⟩
    · obtain ⟨z, member, covers⟩ := covers
      obtain ⟨found, reached⟩ := covered z member place covers
      rw [Memory.reach, Memory.zeroed, reached]
      rfl
    · rw [Memory.number_zeroed]
      decide
  slabs slab allocator found := by cases found
  owned := by simp
  formatted := by simp
  served := by simp
  taken := by simp
  distinct := .nil
  held := by simp

end Sound

theorem Reached.sound (reached : Reached s) : ∃ pages, s.Sound pages := by
  induction reached with
  | start built created covered => exact ⟨[], .start_sound built created covered⟩
  | step reached allowed performed ih =>
      obtain ⟨pages, sound⟩ := ih
      obtain ⟨next, nextPages, answer, after, _⟩ := sound.perform_sound allowed
      rw [performed] at answer
      exact ⟨nextPages, Except.ok.inj answer ▸ after⟩

/-- Whatever clients ask for and in whatever order they give it back: live objects, live blocks and the
headers of slab pages stay apart, an object is aligned to its class and lies in a zone of its slab
allocator, every call returns, and none changes a byte that is live before and after it. -/
theorem reached_separated (reached : Reached s) :
    s.Separated ∧ ∀ call, s.Allowed call → ∃ next, s.perform call = .ok next ∧ s.Keeps call next := by
  obtain ⟨pages, sound⟩ := reached.sound
  refine ⟨sound.separated, fun call allowed => ?_⟩
  obtain ⟨next, _, performed, _, keeps⟩ := sound.perform_sound allowed
  exact ⟨next, performed, keeps⟩

theorem Reached.run {calls : List Call} {last : Session} (reached : Reached s)
    (asking : ∀ call ∈ calls, ∀ t : Session, t.Allowed call)
    (ran : calls.foldlM perform s = .ok last) : Reached last := by
  induction calls generalizing s with
  | nil => exact Except.ok.inj ran ▸ reached
  | cons call rest ih =>
      rw [List.foldlM_cons] at ran
      obtain ⟨next, performed, ran⟩ := bind_eq_ok.mp ran
      exact ih (reached.step (asking call (List.mem_cons_self ..) s) performed)
        (fun later member => asking later (List.mem_cons_of_mem _ member)) ran

/-- The session after some calls on a machine with eight pages, unless one faults. -/
def eightPagesAfter (calls : List Call) : Option Session :=
  (PageAllocator.create PageAllocator.eightPages (.directMap 0) {}).outcome.toOption.bind
    fun made => made.1.toOption.bind fun pages =>
      (calls.foldlM perform
        ⟨⟨made.2, ⟨pages, Memory.zeroed (.directMap 0)⟩, []⟩, [], [], []⟩).toOption

theorem eightPagesAfter_reached {calls : List Call} (asking : ∀ call ∈ calls, ∀ t : Session, t.Allowed call)
    (after : eightPagesAfter calls = some s) : Reached s := by
  obtain ⟨made, created, after⟩ := Option.bind_eq_some_iff.mp after
  obtain ⟨pages, answer, ran⟩ := Option.bind_eq_some_iff.mp after
  obtain ⟨made, next⟩ := made
  obtain rfl := toOption_eq_some.mp answer
  have start : Reached ⟨⟨next, ⟨pages, Memory.zeroed (.directMap 0)⟩, []⟩, [], [], []⟩ :=
    .start PageAllocator.eightPages_built (toOption_eq_some.mp created) fun z _ addr _ => ⟨_, rfl⟩
  exact start.run asking (toOption_eq_some.mp ran)

def oneOfEach : List Call :=
  [.addSlab .dma, .slabAllocate 0 2000, .slabAllocate 0 5000, .allocatePages .dma 1 none]

theorem oneOfEach_reached : ∃ s : Session, Reached s ∧
    s.small.length = 1 ∧ s.large.length = 1 ∧ s.direct.length = 1 := by
  have computed : ((eightPagesAfter oneOfEach).map fun s =>
      decide (s.small.length = 1 ∧ s.large.length = 1 ∧ s.direct.length = 1)) = some true := by
    decide +kernel
  obtain ⟨s, after, lengths⟩ := Option.map_eq_some_iff.mp computed
  refine ⟨s, eightPagesAfter_reached (fun call member t => ?_) after, of_decide_eq_true lengths⟩
  simp only [oneOfEach, List.mem_cons, List.not_mem_nil, or_false] at member
  rcases member with rfl | rfl | rfl | rfl <;> exact trivial

theorem reached_separated_eight : ∃ s : Session, Reached s ∧
    (s.small.length = 1 ∧ s.large.length = 1 ∧ s.direct.length = 1) ∧
    s.Separated ∧ ∀ call, s.Allowed call → ∃ next, s.perform call = .ok next ∧ s.Keeps call next := by
  obtain ⟨s, reached, lengths⟩ := oneOfEach_reached
  exact ⟨s, reached, lengths, reached_separated reached⟩

end Session

end ZonedMemory.Machine
