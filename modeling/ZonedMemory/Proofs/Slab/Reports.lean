import ZonedMemory.Proofs.Machine.Sound
import ZonedMemory.Proofs.PageAllocator.Reports
import ZonedMemory.Proofs.Slab.Usage

namespace ZonedMemory

/-!
What slab allocators report can be written. Two of their events are not always: a page whose list is
given up must have counted a free object, and the pages of the large allocations are added up.
-/

variable {live others : List Block} {k : Backing} {pages chain : List SlabPage} {page sizeClass : Nat}

namespace Backing

theorem allocate_written (sound : k.pages.Sound live) (flags : ZoneFlags) (count : Nat) :
    (k.allocate flags count).Written :=
  (sound.allocateAligned_written flags count pageSize).bind fun _ _ => .pure _

theorem free_written (sound : k.pages.Sound live) (addr : Nat) : (k.free addr).Written :=
  (sound.free_written addr).bind fun _ _ => .pure _

end Backing

namespace SlabCache

variable {c : SlabCache}

theorem walkFrom_written {σ : Type} {visit : σ → Nat → SlabHeader → Traced (σ × Bool)}
    (visited : ∀ state page header, (visit state page header).Written) (objectSize steps link : Nat)
    (state : σ) (k : Backing) : (walkFrom objectSize visit steps link state k).Written := by
  induction steps generalizing link state k with
  | zero => exact .pure _
  | succ steps ih =>
      rw [walkFrom]
      split
      · exact .pure _
      · apply Traced.Written.compute
        intro found _
        obtain ⟨page, next⟩ := found
        cases page with
        | false => exact .answer ⟨_, rfl⟩
        | true =>
            apply Traced.Written.compute
            intro header _
            split
            · apply (visited state link header).bind
              intro answer _
              obtain ⟨state, stop⟩ := answer
              cases stop with
              | true => exact .pure _
              | false => exact ih ..
            · exact (Traced.Written.report ⟨_, rfl⟩).bind fun _ _ => ih ..

theorem visitForSpace_written (found : Option Nat) (page : Nat) (header : SlabHeader) :
    (visitForSpace found page header).Written := by
  unfold visitForSpace
  split
  · exact .pure _
  · apply Traced.Written.compute
    intro holds _
    split
    · exact .pure _
    · exact .answer ⟨_, rfl⟩

theorem visitForUsage_written (usage : SlabUsage) (page : Nat) (header : SlabHeader) :
    (visitForUsage usage page header).Written :=
  .compute fun _ _ => .compute fun _ _ => .compute fun _ _ => .pure _

theorem grow_written (sound : k.pages.Sound live) (c : SlabCache) (flags : ZoneFlags) :
    (c.grow flags k).Written := by
  apply (Backing.allocate_written sound flags 1).bind
  intro result _
  obtain ⟨answer, next⟩ := result
  cases answer with
  | error reason => exact .pure _
  | ok page =>
      -- clearing the page, counting its objects and writing the header report nothing
      exact .compute fun _ _ => .compute fun _ _ => .compute fun _ _ => .compute fun _ _ =>
        .compute fun _ _ => .compute fun _ _ => .answer ⟨_, rfl⟩

end SlabCache

namespace SlabAllocator

variable {a : SlabAllocator} {own : List SlabPage} {large : List LargeAllocation}

theorem takeObject_written (counted : ∀ header, SlabHeader.read k.memory page = .ok header →
    1 ≤ header.freeCount) (objectSize : Nat) : (takeObject page objectSize k).Written := by
  apply Traced.Written.compute
  intro header read
  apply Traced.Written.compute
  intro next _
  have stray : ∃ text, (Event.slab (.strayLink page next header.freeCount)).text = .ok text := by
    simp only [Event.text, SlabEvent.text, Word.sub_eq (counted header read), ok_bind]
    exact ⟨_, rfl⟩
  dsimp only
  split
  on_goal 1 => apply (Traced.Written.pure true).bind
  on_goal 2 => apply Traced.Written.compute
  all_goals
    intro intact _
    split
    · exact .compute fun _ _ => (Traced.Written.pure _).bind fun _ _ => .answer ⟨_, rfl⟩
    · exact (Traced.Written.report stray).bind fun _ _ => (Traced.Written.pure _).bind fun _ _ =>
        .answer ⟨_, rfl⟩

/-- A page with a free object counts at least one. -/
theorem takeObject_listed_written {p : SlabPage} (stocked : k.Stocked pages others) (member : p ∈ pages)
    (space : p.free ≠ []) (objectSize : Nat) : (takeObject p.addr objectSize k).Written := by
  apply takeObject_written
  intro header read
  rw [(stocked.formatted p member).read_eq (stocked.page_reached member)] at read
  obtain rfl := Except.ok.inj read
  exact List.length_pos_iff.mpr space

theorem allocateObject_written (stocked : k.Stocked pages others) (keeps : a.Keeps own large)
    (part : own.Sublist pages) (bound : sizeClass < SizeClass.count) :
    (a.allocateObject sizeClass k).Written := by
  have cached := keeps.caches sizeClass bound
  have ofClass : (own.filter fun p => p.sizeClass = sizeClass).Sublist pages :=
    List.filter_sublist.trans part
  apply Traced.Written.compute
  intro cache here
  obtain rfl : cache = a.caches[sizeClass] := by
    simpa [SlabAllocator.cache, bound] using here.symm
  obtain ⟨answer, walked, search, alike, result⟩ := SlabCache.walkFrom_eq stocked
    a.caches[sizeClass].objectSize (fun p listed => ofClass.subset listed) cached.chained
  rw [← cached.counted] at search
  have walkedStocked := stocked.alike alike
  apply (SlabCache.walkFrom_written SlabCache.visitForSpace_written ..).bind
  intro found searched
  obtain rfl : found = (answer, walked) := Except.ok.inj (searched.symm.trans search)
  rcases result with ⟨rfl, _⟩ | ⟨p, listed, space, rfl⟩
  · apply (SlabCache.grow_written walkedStocked.allocator _ _).bind
    intro grown answered
    rcases SlabCache.grow_laid walkedStocked.toLaid cached ofClass bound 0 a.flags with
      ⟨page, cache, after, again, served, formatted, _, _, kin, translator, frame⟩ |
      ⟨reason, after, again, _⟩
    · obtain rfl := Except.ok.inj (answered.symm.trans again)
      have joined := walkedStocked.join kin served formatted translator frame
      apply Traced.Written.compute
      intro changed _
      have space : (SlabCache.newPage 0 sizeClass page a.caches[sizeClass].firstPage).free ≠ [] := by
        change slots page sizeClass ≠ []
        rw [slots_eq_cons page bound]
        exact List.cons_ne_nil _ _
      exact (takeObject_listed_written joined (List.mem_cons_self ..) space _).bind fun _ _ => .pure _
    · obtain rfl := Except.ok.inj (answered.symm.trans again)
      exact .pure _
  · exact (takeObject_listed_written walkedStocked (ofClass.subset listed) space _).bind fun _ _ => .pure _

theorem allocateLarge_written (sound : k.pages.Sound live) (a : SlabAllocator) (size : Nat) :
    (a.allocateLarge size k).Written := by
  unfold allocateLarge
  split
  · exact .answer ⟨_, rfl⟩
  · apply (Backing.allocate_written sound _ _).bind
    intro result _
    obtain ⟨answer, next⟩ := result
    cases answer with
    | error reason => exact .pure _
    | ok addr =>
        apply Traced.Written.compute
        intro entered _
        obtain ⟨answer, table⟩ := entered
        cases answer with
        | error reason => exact .pure _
        | ok _ => exact .answer ⟨_, rfl⟩

theorem allocate_written (stocked : k.Stocked pages others) (keeps : a.Keeps own large)
    (part : own.Sublist pages) (size : Nat) : (a.allocate size k).Written := by
  unfold allocate
  split
  · exact allocateLarge_written stocked.allocator a size
  · rename_i small
    have fits := Nat.le_of_not_lt small
    apply Traced.Written.compute
    intro result answered
    obtain rfl := Except.ok.inj (answered.symm.trans (SizeClass.ofSize_eq fits))
    exact allocateObject_written stocked keeps part (SizeClass.holding_lt fits)

theorem freeLarge_written (sound : k.pages.Sound live) (a : SlabAllocator) (addr : Nat) :
    (a.freeLarge addr k).Written := by
  apply Traced.Written.compute
  intro removed _
  obtain ⟨entry, table⟩ := removed
  cases entry with
  | none => exact .answer ⟨_, rfl⟩
  | some entry =>
      apply (Backing.free_written sound addr).bind
      intro result _
      obtain ⟨answer, next⟩ := result
      cases answer with
      | ok _ => exact .answer ⟨_, rfl⟩
      | error reason =>
          apply (Traced.Written.report ⟨_, rfl⟩).bind
          intro _ _
          apply Traced.Written.compute
          intro entered _
          obtain ⟨answer, table⟩ := entered
          cases answer with
          | error reason => exact .pure _
          | ok _ => exact .pure _

theorem objectSizeOf_written (page addr : Nat) (header : SlabHeader) :
    (objectSizeOf page addr header).Written := by
  unfold objectSizeOf
  split
  · apply Traced.Written.compute
    intro sized _
    have judged (valid : Bool) : (if valid = true then
          (pure (Except.ok header.objectSize) : Traced (Except SlabError Nat))
        else do
          Traced.report (Event.slab (.badObjectSize page header.objectSize))
          pure (Except.error (.corrupted page))).Written := by
      cases valid with
      | true => exact .pure _
      | false => exact .answer ⟨_, rfl⟩
    cases sized with
    | error reason => exact judged false
    | ok sizeClass => exact .compute fun _ _ => judged _
  · exact .answer ⟨_, rfl⟩

theorem freeObject_written (addr : Nat) (k : Backing) : (freeObject addr k).Written := by
  apply Traced.Written.compute
  intro page _
  apply Traced.Written.compute
  intro header _
  apply (objectSizeOf_written page addr header).bind
  intro objectSize _
  cases objectSize with
  | error reason => exact .pure _
  | ok objectSize =>
      apply Traced.Written.compute
      intro holds _
      dsimp only
      split
      · split
        on_goal 1 => apply (Traced.Written.pure true).bind
        on_goal 2 => apply Traced.Written.compute
        all_goals
          intro unused _
          split
          · exact .answer ⟨_, rfl⟩
          · exact .compute fun _ _ => .answer ⟨_, rfl⟩
      · exact .answer ⟨_, rfl⟩

theorem free_written (sound : k.pages.Sound live) (a : SlabAllocator) (addr : Nat) :
    (a.free addr k).Written := by
  obtain ⟨zone, after, looked, alike, _⟩ := Backing.zoneOf_eq sound addr
  apply Traced.Written.compute
  intro found answered
  obtain rfl := Except.ok.inj (answered.symm.trans looked)
  cases zone with
  | none => exact .answer ⟨_, rfl⟩
  | some zone =>
      apply Traced.Written.compute
      intro paged _
      split
      · exact freeLarge_written (alike.sound sound) a addr
      · exact (freeObject_written addr after).bind fun _ _ => .pure _

theorem usage_written (a : SlabAllocator) (sizeClass : Nat) (k : Backing) : (a.usage sizeClass k).Written :=
  .compute fun _ _ => SlabCache.walkFrom_written SlabCache.visitForUsage_written ..

end SlabAllocator

end ZonedMemory
