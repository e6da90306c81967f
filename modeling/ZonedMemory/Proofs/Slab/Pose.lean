import ZonedMemory.Proofs.Slab.Backing

namespace ZonedMemory.SlabAllocator

/-!
Freeing an object of a page that may hold anything. Nothing but the bytes of the page decides whether it is
a slab page, what its objects are and which of them are in use.
-/

/-- To whoever frees `addr`, its page looks like a slab page in which it is an object in use. -/
structure Poses (m : Memory) (page addr : Nat) : Prop where
  magic : (SlabHeader.standing m page).magic = SlabHeader.validMagic
  objectSize : ∃ index < SizeClass.count, (SlabHeader.standing m page).objectSize = SizeClass.bytes index
  object : (SlabHeader.standing m page).holdsObject page addr = .ok true
  room : (SlabHeader.standing m page).freeCount < (SlabHeader.standing m page).totalObjects
  used : onFreeList (SlabHeader.standing m page) page addr m (SlabHeader.standing m page).freeCount
    (SlabHeader.standing m page).freeList ≠ .ok true

variable {m : Memory} {k : Backing} {header : SlabHeader} {page index addr object : Nat}

/-- Thirty-two bytes are enough for any page to tell of any object in use. -/
theorem exists_poses (small : index < SizeClass.count)
    (word : page + 2 * pageSize ≤ 2 ^ 64) (here : m.reach page = .ok ()) (slot : Slot page index addr) :
    ∃ memory : Memory, memory.translator = m.translator ∧
      (∀ place, place < page ∨ page + SlabHeader.size ≤ place → memory.byte place = m.byte place) ∧
      Poses memory page addr := by
  have largest := SizeClass.bytes_le small
  have objects := SizeClass.objects_lt small
  have size : SizeClass.bytes index < 256 ^ 4 := largest.trans_lt (by decide)
  have total : SizeClass.objects index < 256 ^ 4 := objects.trans (by decide)
  obtain ⟨memory, _, standing, translator, outside⟩ := SlabHeader.write_eq {
    magic := SlabHeader.validMagic
    objectSize := SizeClass.bytes index
    totalObjects := SizeClass.objects index
    freeCount := 0
    nextPage := SlabHeader.noPage
    freeList := 0 } here
    ⟨show SlabHeader.validMagic < 256 ^ 4 by decide, size, total, show 0 < 256 ^ 4 by decide,
      show SlabHeader.noPage < 256 ^ 8 by decide, show 0 < 256 ^ 8 by decide⟩
  refine ⟨memory, translator, outside, ?_⟩
  have inside := slot.inside small
  have room : SizeClass.largest < pageSize := by decide
  have least : SlabHeader.size = 32 := rfl
  constructor
  case magic => rw [standing]
  case objectSize => exact ⟨index, small, by rw [standing]⟩
  case object =>
    obtain ⟨answer, tested, exactly⟩ := SlabHeader.holdsObject_eq small
      (show (SlabHeader.standing memory page).objectSize = _ by rw [standing])
      (show (SlabHeader.standing memory page).totalObjects = _ by rw [standing]) word
      (show addr + SizeClass.bytes index < 2 ^ 64 by omega)
    rw [tested, exactly.mpr slot]
  case room =>
    rw [standing]
    exact SizeClass.objects_pos small
  case used =>
    rw [standing]
    exact nofun

/-- Following a free list through arbitrary bytes ends, or the test of a link faults. -/
theorem onFreeList_answers (small : index < SizeClass.count) (size : header.objectSize = SizeClass.bytes index)
    (word : page + 2 * pageSize ≤ 2 ^ 64)
    (reached : ∀ place, page ≤ place → place < page + pageSize → m.reach place = .ok ()) (steps : Nat) :
    (∃ answer, onFreeList header page addr m steps object = .ok answer) ∨
      onFreeList header page addr m steps object = .error .addOverflow := by
  induction steps generalizing object with
  | zero => exact .inl ⟨false, rfl⟩
  | succ steps ih =>
      rcases header.holdsObject_cases small size word object with ⟨answer, tested, inside⟩ | ⟨tested, _⟩
      · cases answer with
        | false =>
            refine .inl ⟨false, ?_⟩
            rw [onFreeList, tested]
            rfl
        | true =>
            obtain ⟨lower, upper⟩ := inside rfl
            simp only [onFreeList, tested, ok_bind, if_true, Memory.readWord_eq (reached object lower upper)]
            by_cases found : object = addr
            · exact .inl ⟨true, if_pos found⟩
            · rw [if_neg found]
              exact ih
      · refine .inr ?_
        rw [onFreeList, tested]
        rfl

section FreeObject

variable {live : List Block}

/-- The page around an address of a zone can be read, whatever it holds. -/
theorem page_reached (sound : k.pages.Sound live)
    (reached : ∀ place, k.pages.Covers place → k.memory.reach place = .ok ()) (covers : k.pages.Covers addr)
    (start : page = addr / pageSize * pageSize) (place : Nat) (lower : page ≤ place)
    (upper : place < page + pageSize) : k.memory.reach place = .ok () :=
  reached place (sound.covers_page covers (start ▸ lower) (start ▸ upper))

theorem freeObject_read (sound : k.pages.Sound live)
    (reached : ∀ place, k.pages.Covers place → k.memory.reach place = .ok ()) (covers : k.pages.Covers addr)
    (start : page = addr / pageSize * pageSize) :
    Address.alignDown addr pageSize = .ok page ∧
      SlabHeader.read k.memory page = .ok (SlabHeader.standing k.memory page) := by
  have aligned := Address.alignDown_page (sound.covers_word covers)
  have here := page_reached sound reached covers start page (Nat.le_refl _)
    (Nat.lt_add_of_pos_right pageSize_pos)
  exact ⟨start ▸ aligned, SlabHeader.read_eq here⟩

theorem freeObject_invalid (sound : k.pages.Sound live)
    (reached : ∀ place, k.pages.Covers place → k.memory.reach place = .ok ()) (covers : k.pages.Covers addr)
    (start : page = addr / pageSize * pageSize)
    (invalid : ¬ ((SlabHeader.standing k.memory page).magic = SlabHeader.validMagic ∧
      ∃ index < SizeClass.count, (SlabHeader.standing k.memory page).objectSize = SizeClass.bytes index)) :
    (freeObject addr k).outcome = .ok (.error (.corrupted page), k) := by
  obtain ⟨aligned, read⟩ := freeObject_read sound reached covers start
  simp only [freeObject, Traced.outcome_bind, Traced.outcome_lift, aligned, read, ok_bind,
    objectSizeOf_invalid invalid, Traced.outcome_pure]

theorem freeObject_valid (sound : k.pages.Sound live)
    (reached : ∀ place, k.pages.Covers place → k.memory.reach place = .ok ()) (covers : k.pages.Covers addr)
    (start : page = addr / pageSize * pageSize)
    (magic : (SlabHeader.standing k.memory page).magic = SlabHeader.validMagic)
    (small : index < SizeClass.count)
    (size : (SlabHeader.standing k.memory page).objectSize = SizeClass.bytes index) :
    (freeObject addr k).outcome = (SlabHeader.standing k.memory page).holdsObject page addr >>= fun held =>
      if held then
        (if (SlabHeader.standing k.memory page).totalObjects ≤ (SlabHeader.standing k.memory page).freeCount then
            .ok true
          else onFreeList (SlabHeader.standing k.memory page) page addr k.memory
            (SlabHeader.standing k.memory page).freeCount (SlabHeader.standing k.memory page).freeList) >>=
          fun unused => .ok (if unused then (.error .notAllocated, k) else (.ok (), { k with
            memory := SlabHeader.writeFreeList
              (k.memory.setNumber addr 8 (SlabHeader.standing k.memory page).freeList) page addr
              ((SlabHeader.standing k.memory page).freeCount + 1) }))
      else .ok (.error .notSlabObject, k) := by
  obtain ⟨aligned, read⟩ := freeObject_read sound reached covers start
  have write := Memory.writeWord_eq (SlabHeader.standing k.memory page).freeList (reached addr covers)
  simp only [freeObject, Traced.outcome_bind, Traced.outcome_lift, aligned, read, ok_bind,
    objectSizeOf_valid magic small size]
  refine bind_congr fun held => ?_
  cases held with
  | false =>
      simp only [Bool.false_eq_true, if_false, Traced.outcome_bind, Traced.outcome_report, ok_bind,
        Traced.outcome_pure]
  | true =>
      by_cases full : (SlabHeader.standing k.memory page).totalObjects ≤
          (SlabHeader.standing k.memory page).freeCount
      · simp only [if_pos full, if_true, Traced.outcome_bind, Traced.outcome_pure, Traced.outcome_report, ok_bind]
      · simp only [if_neg full, if_true, Traced.outcome_bind, Traced.outcome_lift]
        refine bind_congr fun unused => ?_
        cases unused with
        | true => rfl
        | false =>
            simp only [Bool.false_eq_true, if_false, Traced.outcome_bind, Traced.outcome_lift, write, ok_bind,
              Traced.outcome_report, Traced.outcome_pure]

/-- Where a page does not tell of an object in use, none is freed. -/
theorem freeObject_unposed (sound : k.pages.Sound live)
    (reached : ∀ place, k.pages.Covers place → k.memory.reach place = .ok ()) (covers : k.pages.Covers addr)
    (start : page = addr / pageSize * pageSize) (unposed : ¬ Poses k.memory page addr) :
    ∃ reason, (freeObject addr k).outcome = .ok (.error reason, k) := by
  by_cases valid : (SlabHeader.standing k.memory page).magic = SlabHeader.validMagic ∧
      ∃ index < SizeClass.count, (SlabHeader.standing k.memory page).objectSize = SizeClass.bytes index
  · obtain ⟨magic, index, small, size⟩ := valid
    have word := sound.page_word covers
    rw [← start] at word
    rw [freeObject_valid sound reached covers start magic small size]
    rcases SlabHeader.holdsObject_cases small size word addr with ⟨answer, tested, _⟩ | ⟨_, past⟩
    · rw [tested, ok_bind]
      cases answer with
      | false => exact ⟨.notSlabObject, rfl⟩
      | true =>
          refine ⟨.notAllocated, ?_⟩
          by_cases full : (SlabHeader.standing k.memory page).totalObjects ≤
              (SlabHeader.standing k.memory page).freeCount
          · rw [if_pos full]
            rfl
          · have free : onFreeList (SlabHeader.standing k.memory page) page addr k.memory
                (SlabHeader.standing k.memory page).freeCount (SlabHeader.standing k.memory page).freeList =
                .ok true := by
              by_contra used
              exact unposed ⟨magic, ⟨index, small, size⟩, tested, Nat.lt_of_not_le full, used⟩
            rw [if_neg full, free]
            rfl
    · have := SizeClass.bytes_le small
      have : SizeClass.largest < pageSize := by decide
      have : addr < page + pageSize := by
        rw [start, ← Nat.succ_mul]
        exact Nat.lt_mul_of_div_lt (Nat.lt_succ_self _) pageSize_pos
      omega
  · exact ⟨_, freeObject_invalid sound reached covers start valid⟩

/-- An object in use that a page tells of is freed, unless the test of a link of the page faults. -/
theorem freeObject_posed (sound : k.pages.Sound live)
    (reached : ∀ place, k.pages.Covers place → k.memory.reach place = .ok ()) (covers : k.pages.Covers addr)
    (start : page = addr / pageSize * pageSize) (poses : Poses k.memory page addr) :
    (freeObject addr k).outcome = .error .addOverflow ∨
      ∃ after, (freeObject addr k).outcome = .ok (.ok (), after) ∧
        after.memory = SlabHeader.writeFreeList
          (k.memory.setNumber addr 8 (SlabHeader.standing k.memory page).freeList) page addr
          ((SlabHeader.standing k.memory page).freeCount + 1) := by
  obtain ⟨magic, ⟨index, small, size⟩, object, room, used⟩ := poses
  have word := sound.page_word covers
  rw [← start] at word
  rw [freeObject_valid sound reached covers start magic small size, object, ok_bind, if_pos rfl,
    if_neg (Nat.not_le.mpr room)]
  rcases onFreeList_answers small size word (page_reached sound reached covers start)
    (SlabHeader.standing k.memory page).freeCount with ⟨answer, listed⟩ | faulted
  · cases answer with
    | true => exact absurd listed used
    | false =>
        rw [listed]
        exact .inr ⟨_, rfl, rfl⟩
  · rw [faulted]
    exact .inl rfl

end FreeObject

end ZonedMemory.SlabAllocator
