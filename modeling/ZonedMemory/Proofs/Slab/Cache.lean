import ZonedMemory.Proofs.Slab.Backing

namespace ZonedMemory

/-!
The cache of a size class: its pages in the order of their links. A walk along intact pages stops at
the first one with a free object, and a new page comes in front of the others.
-/

namespace Backing

variable {k after : Backing} {pages : List SlabPage} {others : List Block} {p : SlabPage}
  {addr : Nat} {flags : ZoneFlags}

theorem zoneOf_eq {live : List Block} (sound : k.pages.Sound live) (addr : Nat) :
    ∃ found after, k.zoneOf addr = .ok (found, after) ∧ Alike k after ∧
      (found.isSome = true ↔ k.pages.Covers addr) := by
  obtain ⟨found, table, answer, same, covering⟩ := sound.serving.find_eq addr
  refine ⟨found, { k with pages := { k.pages with zones := table } }, by rw [zoneOf, answer]; rfl,
    ⟨rfl, same, ⟨rfl, rfl, congrArg _ same⟩⟩, ?_⟩
  constructor
  · intro isSome
    obtain ⟨z, rfl⟩ := Option.isSome_iff_exists.mp isSome
    exact ⟨z, (covering z).mp rfl⟩
  · intro covers
    obtain ⟨z, member⟩ := covers
    rw [(covering z).mpr member]
    rfl

theorem isPage_eq (laid : k.Laid pages others) (member : p ∈ pages) :
    ∃ after, k.isPage p.addr = .ok (true, after) ∧ Alike k after := by
  obtain ⟨found, after, answer, alike, covering⟩ := zoneOf_eq laid.allocator p.addr
  have covers : k.pages.Covers p.addr :=
    laid.page_covers member ⟨Nat.le_refl _, Nat.lt_add_of_pos_right pageSize_pos⟩
  have paged : Address.isAligned p.addr pageSize = .ok true := by
    rw [Address.isAligned_page, decide_eq_true (laid.placed member).paged]
  refine ⟨after, ?_, alike⟩
  simp only [isPage, paged, answer, ok_bind, if_true, covering.mpr covers, pure_eq_ok]

/-- Allocating pages gives a fresh block or changes no zone. The memory stays as it is. -/
theorem allocate_laid (laid : k.Laid pages others) (flags : ZoneFlags) (count : Nat) :
    (∃ (x : Block) (allocator : PageAllocator),
      (k.allocate flags count).outcome = .ok (.ok x.addr, { k with pages := allocator }) ∧
      x.order = Nat.clog 2 count ∧ k.pages.Provides flags x ∧ PageAllocator.Kin k.pages allocator ∧
      allocator.Sound (x :: (pages.map SlabPage.block ++ others))) ∨
    ∃ reason after, (k.allocate flags count).outcome = .ok (.error reason, after) ∧ Alike k after := by
  rcases PageAllocator.allocateAligned_sound laid.allocator flags count pageSize with
    ⟨x, allocator, answer, order, _, provides, kin, sound⟩ | ⟨reason, allocator, answer, same, kin⟩
  · refine .inl ⟨x, allocator, ?_, order, provides, kin, sound⟩
    simp only [allocate, PageAllocator.allocate, Traced.outcome_bind, answer, ok_bind,
      Traced.outcome_pure]
  · refine .inr ⟨reason, { k with pages := allocator }, ?_, rfl, same, kin⟩
    simp only [allocate, PageAllocator.allocate, Traced.outcome_bind, answer, ok_bind,
      Traced.outcome_pure]

end Backing

namespace SlabCache

/-- Each page links to the next one, the last one nowhere. -/
def Chained : (link : Nat) → List SlabPage → Prop
  | link, [] => link = SlabHeader.noPage
  | link, p :: rest => link = p.addr ∧ Chained p.next rest

/-- The cache keeps the pages of one class. -/
structure Keeps (c : SlabCache) (sizeClass : Nat) (pages : List SlabPage) : Prop where
  objectSize : c.objectSize = SizeClass.bytes sizeClass
  chained : Chained c.firstPage pages
  counted : c.pageCount = pages.length

variable {k : Backing} {pages chain : List SlabPage} {others : List Block} {p : SlabPage}
  {c : SlabCache} {link sizeClass : Nat}

theorem Chained.relist {addr : Nat} {free : List Nat} (chained : Chained link chain) :
    Chained link (chain.map (SlabPage.relist addr free)) := by
  induction chain generalizing link with
  | nil => exact chained
  | cons p rest ih =>
      refine ⟨?_, ?_⟩
      · rw [SlabPage.relist_addr]
        exact chained.1
      · rw [SlabPage.relist_next]
        exact ih chained.2

theorem Chained.word (chained : Chained link chain) (placed : ∀ p ∈ chain, p.Placed) : link < 2 ^ 64 := by
  cases chain with
  | nil =>
      rw [chained]
      decide
  | cons p rest =>
      have word := (placed p (List.mem_cons_self ..)).word
      have := pageSize_pos
      rw [chained.1]
      omega

theorem visitForSpace_eq (stocked : k.Stocked pages others) (member : p ∈ pages) :
    (visitForSpace none p.addr p.header).outcome =
      .ok (if p.free = [] then (none, false) else (some p.addr, true)) := by
  have formatted := stocked.formatted p member
  have count : p.header.freeCount = p.free.length := rfl
  have list : p.header.freeList = p.free.headD 0 := rfl
  cases free : p.free with
  | nil => simp only [visitForSpace, count, free, List.length_nil, if_true, Traced.outcome_pure]
  | cons first rest =>
      have slot := formatted.slots first (free ▸ List.mem_cons_self ..)
      simp only [visitForSpace, count, list, free, List.length_cons, List.headD_cons,
        Traced.outcome_bind, Traced.outcome_lift, formatted.holdsObject_slot slot, ok_bind, if_true,
        Traced.outcome_pure, reduceCtorEq, if_false]

/-- A walk shows a page if it has a valid magic and goes on to the page that it links to. -/
theorem walkFrom_cons {σ : Type} (laid : k.Laid pages others) (member : p ∈ pages)
    (visit : σ → Nat → SlabHeader → Traced (σ × Bool)) (state : σ) (objectSize steps : Nat) :
    ∃ after, Backing.Alike k after ∧
      (walkFrom objectSize visit (steps + 1) p.addr state k).outcome =
        if (SlabHeader.standing k.memory p.addr).magic = SlabHeader.validMagic then
          (visit state p.addr (SlabHeader.standing k.memory p.addr)).outcome >>= fun answer =>
            if answer.2 then .ok (answer.1, after)
            else (walkFrom objectSize visit steps p.next answer.1 after).outcome
        else (walkFrom objectSize visit steps p.next state after).outcome := by
  have some := (laid.placed member).ne_noPage
  obtain ⟨after, found, alike⟩ := Backing.isPage_eq laid member
  have read := SlabPage.read_eq (laid.page_reached member)
  have linked := laid.linked member
  rw [← alike.memory] at read linked ⊢
  refine ⟨after, alike, ?_⟩
  simp only [walkFrom, if_neg some, Traced.outcome_bind, Traced.outcome_lift, found, ok_bind, read,
    Traced.outcome_ite, Traced.outcome_report, linked]
  split
  · refine bind_congr fun answer => ?_
    obtain ⟨later, done⟩ := answer
    cases done <;> rfl
  · rfl

theorem walkFrom_intact {σ : Type} {visit : σ → Nat → SlabHeader → Traced (σ × Bool)} {state later : σ}
    {done : Bool} (stocked : k.Stocked pages others) (member : p ∈ pages)
    (visited : (visit state p.addr p.header).outcome = .ok (later, done)) (objectSize steps : Nat) :
    ∃ after, Backing.Alike k after ∧
      (walkFrom objectSize visit (steps + 1) p.addr state k).outcome =
        if done then .ok (later, after)
        else (walkFrom objectSize visit steps p.next later after).outcome := by
  have header := (stocked.formatted p member).header
  obtain ⟨after, alike, entered⟩ := walkFrom_cons stocked.toLaid member visit state objectSize steps
  rw [header, if_pos (show p.header.magic = SlabHeader.validMagic from rfl), visited, ok_bind] at entered
  exact ⟨after, alike, entered⟩

theorem walkFrom_eq (stocked : k.Stocked pages others) (objectSize : Nat) (members : ∀ p ∈ chain, p ∈ pages)
    (chained : Chained link chain) :
    ∃ answer after, (walkFrom objectSize visitForSpace chain.length link none k).outcome =
        .ok (answer, after) ∧ Backing.Alike k after ∧
      ((answer = none ∧ ∀ p ∈ chain, p.free = []) ∨
        ∃ p ∈ chain, p.free ≠ [] ∧ answer = some p.addr) := by
  induction chain generalizing link k with
  | nil => exact ⟨none, k, rfl, .refl k, .inl ⟨rfl, by simp⟩⟩
  | cons p rest ih =>
      obtain ⟨rfl, chained⟩ := chained
      have member := members p (List.mem_cons_self ..)
      have visit := visitForSpace_eq stocked member
      by_cases full : p.free = []
      · rw [if_pos full] at visit
        obtain ⟨next, alike, entered⟩ := walkFrom_intact stocked member visit objectSize rest.length
        obtain ⟨answer, last, walked, later, result⟩ :=
          ih (stocked.alike alike) (fun q listed => members q (List.mem_cons_of_mem _ listed)) chained
        refine ⟨answer, last, entered.trans walked, alike.trans later, ?_⟩
        rcases result with ⟨none, allFull⟩ | ⟨q, listed, space, answer⟩
        · exact .inl ⟨none, List.forall_mem_cons.mpr ⟨full, allFull⟩⟩
        · exact .inr ⟨q, List.mem_cons_of_mem _ listed, space, answer⟩
      · rw [if_neg full] at visit
        obtain ⟨next, alike, entered⟩ := walkFrom_intact stocked member visit objectSize rest.length
        exact ⟨some p.addr, next, entered, alike, .inr ⟨p, List.mem_cons_self .., full, rfl⟩⟩

theorem nextObject_eq {page index object : Nat} (small : sizeClass < SizeClass.count)
    (word : page + 2 * pageSize ≤ 2 ^ 64)
    (start : object = page + SizeClass.first sizeClass + index * SizeClass.bytes sizeClass) :
    (if index + 1 < SizeClass.objects sizeClass then Word.add object (SizeClass.bytes sizeClass)
      else pure 0 : Except Fault Nat) = .ok (((slots page sizeClass).drop (index + 1)).headD 0) := by
  have room := pageSize_pos
  by_cases more : index + 1 < SizeClass.objects sizeClass
  · have step : object + SizeClass.bytes sizeClass =
        page + SizeClass.first sizeClass + (index + 1) * SizeClass.bytes sizeClass := by
      rw [start, Nat.succ_mul, Nat.add_assoc]
    have slot : Slot page sizeClass (object + SizeClass.bytes sizeClass) := ⟨index + 1, more, step⟩
    have inside := slot.inside small
    rw [if_pos more, Word.add_eq (by omega), drop_slots page more, step]
    rfl
  · have ended : (slots page sizeClass).drop (index + 1) = [] :=
      List.drop_eq_nil_of_le (by rw [slots_length]; omega)
    rw [if_neg more, ended]
    rfl

/-- Chaining the objects of a page writes to the page past the header only. -/
theorem chainObjects_eq {m : Memory} {page left : Nat} (small : sizeClass < SizeClass.count)
    (word : page + 2 * pageSize ≤ 2 ^ 64)
    (reached : ∀ place, page ≤ place → place < page + pageSize → m.reach place = .ok ())
    (le : left ≤ SizeClass.objects sizeClass) :
    ∃ after, chainObjects (page + SizeClass.first sizeClass) (SizeClass.bytes sizeClass)
        (SizeClass.objects sizeClass) left m = .ok after ∧
      after.translator = m.translator ∧
      SlabPage.Linked after
        (((slots page sizeClass).drop (SizeClass.objects sizeClass - left)).headD 0)
        ((slots page sizeClass).drop (SizeClass.objects sizeClass - left)) ∧
      ∀ place, place < page + SizeClass.first sizeClass +
          (SizeClass.objects sizeClass - left) * SizeClass.bytes sizeClass ∨ page + pageSize ≤ place →
        after.byte place = m.byte place := by
  induction left generalizing m with
  | zero =>
      refine ⟨m, rfl, rfl, ?_, fun _ _ => rfl⟩
      rw [Nat.sub_zero, ← slots_length page sizeClass, List.drop_length]
      rfl
  | succ left ih =>
      obtain ⟨index, position⟩ : ∃ index, SizeClass.objects sizeClass - (left + 1) = index := ⟨_, rfl⟩
      obtain ⟨object, start⟩ : ∃ object,
          object = page + SizeClass.first sizeClass + index * SizeClass.bytes sizeClass := ⟨_, rfl⟩
      have following : SizeClass.objects sizeClass - left = index + 1 := by omega
      have bound : index < SizeClass.objects sizeClass := by omega
      have room := pageSize_pos
      have least := SizeClass.word_le_bytes sizeClass
      have inside := Slot.inside ⟨index, bound, start⟩ small
      have offset := Word.mul_eq (show index * SizeClass.bytes sizeClass < 2 ^ 64 by omega)
      have sum : Word.add (page + SizeClass.first sizeClass) (index * SizeClass.bytes sizeClass) =
          .ok object := by rw [Word.add_eq (by omega), start]
      have next := nextObject_eq small word start
      have linkFits : ((slots page sizeClass).drop (index + 1)).headD 0 < 256 ^ 8 :=
        Slot.head_word (fun object listed => mem_slots.mp (List.mem_of_mem_drop listed)) small word
      have stored := Memory.writeWord_eq (((slots page sizeClass).drop (index + 1)).headD 0)
        (reached object (by omega) (by omega))
      -- the link of this object is written first and then left alone
      obtain ⟨after, chained, translator, linked, frame⟩ :=
        ih (m := m.setNumber object 8 (((slots page sizeClass).drop (index + 1)).headD 0))
          (fun place lower upper => by
            rw [Memory.reach_congr Memory.translator_setNumber]
            exact reached place lower upper)
          (by omega)
      rw [following] at linked frame
      have step : (index + 1) * SizeClass.bytes sizeClass =
          index * SizeClass.bytes sizeClass + SizeClass.bytes sizeClass := Nat.succ_mul ..
      refine ⟨after, ?_, translator.trans Memory.translator_setNumber, ?_, fun place outside => ?_⟩
      · simp only [chainObjects, position, offset, ok_bind, sum]
        by_cases more : index + 1 < SizeClass.objects sizeClass
        · rw [if_pos more] at next ⊢
          rw [next, ok_bind, stored, ok_bind, chained]
        · rw [if_neg more] at next ⊢
          rw [next, ok_bind, stored, ok_bind, chained]
      · rw [position, drop_slots page bound, ← start, List.headD_cons]
        refine ⟨rfl, ?_⟩
        have kept : after.number object 8 = ((slots page sizeClass).drop (index + 1)).headD 0 := by
          rw [Memory.number_congr fun place inside => frame (object + place) (.inl (by omega))]
          exact Memory.number_setNumber linkFits
        rw [kept]
        exact linked
      · rw [position] at outside
        rw [frame place (by omega), Memory.byte_setNumber_outside (by omega)]

def newPage (slab sizeClass page next : Nat) : SlabPage := ⟨slab, sizeClass, page, next, slots page sizeClass⟩

/-- Cutting up a page and writing its header leaves everything outside the page alone. -/
theorem format_eq {m : Memory} {page next : Nat} (slab : Nat) (small : sizeClass < SizeClass.count)
    (paged : pageSize ∣ page) (word : page + 2 * pageSize ≤ 2 ^ 64) (nextWord : next < 2 ^ 64)
    (reached : ∀ place, page ≤ place → place < page + pageSize → m.reach place = .ok ()) :
    ∃ chained after,
      chainObjects (page + SizeClass.first sizeClass) (SizeClass.bytes sizeClass)
        (SizeClass.objects sizeClass) (SizeClass.objects sizeClass) m = .ok chained ∧
      SlabHeader.write chained page {
        magic := SlabHeader.validMagic
        objectSize := SizeClass.bytes sizeClass
        totalObjects := SizeClass.objects sizeClass
        freeCount := SizeClass.objects sizeClass
        nextPage := next
        freeList := page + SizeClass.first sizeClass } = .ok after ∧
      after.translator = m.translator ∧ (newPage slab sizeClass page next).Formatted after ∧
      ∀ place, ¬ (newPage slab sizeClass page next).Covers place → after.byte place = m.byte place := by
  obtain ⟨chained, answer, translator, linked, frame⟩ :=
    chainObjects_eq small word reached (Nat.le_refl _)
  rw [Nat.sub_self, List.drop_zero] at linked
  have head : (slots page sizeClass).headD 0 = page + SizeClass.first sizeClass := by
    have all := slots_eq_cons page small
    rw [all, List.headD_cons, Nat.zero_mul, Nat.add_zero]
  have header : (newPage slab sizeClass page next).header = {
      magic := SlabHeader.validMagic
      objectSize := SizeClass.bytes sizeClass
      totalObjects := SizeClass.objects sizeClass
      freeCount := SizeClass.objects sizeClass
      nextPage := next
      freeList := page + SizeClass.first sizeClass } := by
    simp only [newPage, SlabPage.header, SlabPage.head, head, slots_length]
  have objects := SizeClass.objects_lt small
  have bytes := SizeClass.bytes_le small
  have largest : SizeClass.largest < 256 ^ 4 := by decide
  have count : SizeClass.objects sizeClass < 256 ^ 4 := objects.trans (by decide)
  have first := Slot.head_word (fun object listed => mem_slots.mp listed) small word
  rw [head] at first
  have fits : (newPage slab sizeClass page next).header.Fits := by
    rw [header]
    exact ⟨show SlabHeader.validMagic < 256 ^ 4 by decide, bytes.trans_lt largest, count, count, nextWord,
      first⟩
  have here : chained.reach page = .ok () := by
    rw [Memory.reach_congr translator]
    exact reached page (Nat.le_refl _) (Nat.lt_add_of_pos_right pageSize_pos)
  obtain ⟨after, written, standing, same, outside⟩ :=
    SlabHeader.write_eq (newPage slab sizeClass page next).header here fits
  have least : SlabHeader.size ≤ SizeClass.first sizeClass := Nat.le_max_left ..
  have fit := SizeClass.objects_fit small
  refine ⟨chained, after, answer, header ▸ written, same.trans translator,
    ⟨⟨small, paged, word, nextWord⟩, standing, ?_, ?_, ?_⟩,
    fun place away => ?_⟩
  · refine linked.congr fun object listed place lower upper => outside place (.inr ?_)
    have := (mem_slots.mp listed).inside small
    omega
  · exact fun object listed => mem_slots.mp listed
  · exact slots_nodup page sizeClass
  · simp only [SlabPage.Covers, newPage] at away
    have := SizeClass.bytes_le small
    rw [outside place (by omega), frame place ?_]
    rw [Nat.sub_self, Nat.zero_mul]
    omega

/-- The cache grows by a page whose objects are all free, or stays as it is. -/
theorem grow_laid (laid : k.Laid pages others) (keeps : c.Keeps sizeClass chain)
    (part : chain.Sublist pages) (small : sizeClass < SizeClass.count) (slab : Nat) (flags : ZoneFlags) :
    (∃ (page : Nat) (cache : SlabCache) (after : Backing),
      (c.grow flags k).outcome = .ok (.ok page, cache, after) ∧
      after.pages.Sound ((newPage slab sizeClass page c.firstPage).block ::
        (pages.map SlabPage.block ++ others)) ∧
      (newPage slab sizeClass page c.firstPage).Formatted after.memory ∧
      cache.Keeps sizeClass (newPage slab sizeClass page c.firstPage :: chain) ∧
      k.pages.Provides flags (newPage slab sizeClass page c.firstPage).block ∧
      PageAllocator.Kin k.pages after.pages ∧ after.memory.translator = k.memory.translator ∧
      ∀ place, ¬ (newPage slab sizeClass page c.firstPage).Covers place →
        after.memory.byte place = k.memory.byte place) ∨
    ∃ reason after, (c.grow flags k).outcome = .ok (.error reason, c, after) ∧ Backing.Alike k after := by
  rcases Backing.allocate_laid laid flags 1 with
    ⟨x, allocator, answer, order, provides, kin, sound⟩ | ⟨reason, after, answer, alike⟩
  · have start := x.page_dvd_addr
    have word := sound.word (List.mem_cons_self ..)
    have bytes : x.bytes = pageSize := by
      rw [Block.bytes, Block.pages, order, Nat.clog_one_right, Nat.pow_zero, Nat.one_mul]
    rw [bytes] at word
    have reached : ∀ place, x.addr ≤ place → place < x.addr + pageSize →
        k.memory.reach place = .ok () := fun place lower upper =>
      laid.reached place (kin.symm.covers
        (sound.covers (List.mem_cons_self ..) lower (bytes ▸ upper)))
    have placed : ∀ q ∈ chain, q.Placed := fun q listed => laid.placed (part.subset listed)
    obtain ⟨chained, memory, objects, written, translator, formatted, frame⟩ :=
      format_eq slab small start (by omega) (keeps.chained.word placed) reached
    have block : (newPage slab sizeClass x.addr c.firstPage).block = x := by
      have same : x.addr / pageSize = x.start := x.addr_div
      rw [SlabPage.block, newPage, same, ← Nat.clog_one_right 2, ← order]
    have first := SizeClass.objects_fit small
    have room := pageSize_pos
    have offset := Word.add_eq (show x.addr + SizeClass.first sizeClass < 2 ^ 64 by omega)
    have count : Word.add c.pageCount 1 = .ok (c.pageCount + 1) := by
      have := part.length_le
      have := laid.length_lt
      rw [keeps.counted]
      exact Word.add_eq (by omega)
    rw [← block] at sound provides
    refine .inl ⟨x.addr, { c with firstPage := x.addr, pageCount := c.pageCount + 1 },
      ⟨allocator, memory⟩, ?_, sound, formatted,
      ⟨keeps.objectSize, ⟨rfl, keeps.chained⟩, ?_⟩, provides, kin, translator, frame⟩
    · simp only [grow, Traced.outcome_bind, Traced.outcome_lift, answer, ok_bind, keeps.objectSize,
        SizeClass.firstObject_eq small, SizeClass.objectsPerPage_eq small, offset, objects, written, count,
        Traced.outcome_report, Traced.outcome_pure]
    · rw [List.length_cons, keeps.counted]
  · refine .inr ⟨reason, after, ?_, alike⟩
    simp only [grow, Traced.outcome_bind, answer, ok_bind, Traced.outcome_pure]

end SlabCache

end ZonedMemory
