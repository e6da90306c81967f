import ZonedMemory.Proofs.Machine.Population
import ZonedMemory.Proofs.PageAllocator.Availability

namespace ZonedMemory

/-!
How caches grow. A cache takes a page only when all objects of its pages are live, and it never gives one
up, so the number of its pages tells how many objects were live at the most.
-/

theorem SlabCache.grow_error {c cache : SlabCache} {flags : ZoneFlags} {k after : Backing} {reason : AllocError}
    (refused : (c.grow flags k).outcome = .ok (.error reason, cache, after)) :
    (k.allocate flags 1).outcome = .ok (.error reason, after) := by
  obtain ⟨⟨result, next⟩, asked, refused⟩ := Traced.bind_eq_ok.mp refused
  cases result with
  | error other =>
      cases refused
      exact asked
  | ok page =>
      simp only [Traced.bind_eq_ok] at refused
      obtain ⟨_, _, _, _, _, _, _, _, _, _, _, _, _, _, refused⟩ := refused
      cases refused

namespace SlabAllocator

variable {a changed : SlabAllocator} {k after : Backing} {size addr : Nat}

/-- A request for whole pages fails on a full table, then on the page allocator, then on the table. -/
theorem allocateLarge_cases {answer : Except SlabError Nat}
    (answers : (a.allocateLarge size k).outcome = .ok (answer, changed, after)) :
    (a.large.isFull = true ∧ answer = .error .trackingFull ∧ changed = a ∧ after = k) ∨
    a.large.isFull = false ∧
      ((∃ refusal, (k.allocate a.flags (Word.divUp size pageSize)).outcome = .ok (.error refusal, after) ∧
        answer = .error (.page refusal) ∧ changed = a) ∨
      ∃ addr entered table,
        (k.allocate a.flags (Word.divUp size pageSize)).outcome = .ok (.ok addr, after) ∧
        a.large.insert ⟨addr, Word.divUp size pageSize⟩ = .ok (entered, table) ∧
        answer = entered.map (fun _ => addr) ∧ changed.caches = a.caches) := by
  unfold allocateLarge at answers
  simp only [Traced.outcome_ite] at answers
  split at answers
  · rename_i full
    cases answers
    exact .inl ⟨full, rfl, rfl, rfl⟩
  · rename_i room
    refine .inr ⟨Bool.eq_false_of_not_eq_true room, ?_⟩
    obtain ⟨⟨result, next⟩, asked, answers⟩ := Traced.bind_eq_ok.mp answers
    cases result with
    | error reason =>
        cases answers
        exact .inl ⟨reason, asked, rfl, rfl⟩
    | ok start =>
        obtain ⟨⟨entered, table⟩, inserted, answers⟩ := Traced.bind_eq_ok.mp answers
        rw [Traced.outcome_lift] at inserted
        cases entered <;> cases answers <;> exact .inr ⟨start, _, table, asked, inserted, rfl, rfl⟩

/-- Pages that are handed out whole are in no cache. -/
theorem allocateLarge_caches {answer : Except SlabError Nat}
    (answers : (a.allocateLarge size k).outcome = .ok (answer, changed, after)) :
    changed.caches = a.caches := by
  rcases allocateLarge_cases answers with
    ⟨_, _, rfl, _⟩ | ⟨_, ⟨_, _, _, rfl⟩ | ⟨_, _, _, _, _, _, same⟩⟩
  · rfl
  · rfl
  · exact same

/-- Pages are freed whole when they are in the table and the page allocator takes them back. -/
theorem freeLarge_cases {answer : Except SlabError Unit}
    (answers : (a.freeLarge addr k).outcome = .ok (answer, changed, after)) :
    (answer ≠ .ok () ∧ changed.caches = a.caches) ∨
    ∃ entry table, a.large.remove addr = .ok (some entry, table) ∧
      (k.free addr).outcome = .ok (.ok (), after) ∧ changed = { a with large := table } := by
  obtain ⟨⟨removed, table⟩, taken, answers⟩ := Traced.bind_eq_ok.mp answers
  rw [Traced.outcome_lift] at taken
  cases removed with
  | none =>
      cases answers
      exact .inl ⟨nofun, rfl⟩
  | some entry =>
      obtain ⟨⟨result, next⟩, freed, answers⟩ := Traced.bind_eq_ok.mp answers
      cases result with
      | ok _ =>
          cases answers
          exact .inr ⟨entry, table, taken, freed, rfl⟩
      | error reason =>
          obtain ⟨_, _, answers⟩ := Traced.bind_eq_ok.mp answers
          obtain ⟨⟨entered, table⟩, _, answers⟩ := Traced.bind_eq_ok.mp answers
          cases entered <;> cases answers <;> exact .inl ⟨nofun, rfl⟩

theorem freeLarge_caches {answer : Except SlabError Unit}
    (answers : (a.freeLarge addr k).outcome = .ok (answer, changed, after)) :
    changed.caches = a.caches := by
  rcases freeLarge_cases answers with ⟨_, same⟩ | ⟨_, _, _, _, rfl⟩
  · exact same
  · rfl

theorem free_caches {answer : Except SlabError Unit}
    (answers : (a.free addr k).outcome = .ok (answer, changed, after)) : changed.caches = a.caches := by
  obtain ⟨⟨zone, next⟩, _, answers⟩ := Traced.bind_eq_ok.mp answers
  cases zone with
  | none =>
      cases answers
      rfl
  | some zone =>
      obtain ⟨paged, _, answers⟩ := Traced.bind_eq_ok.mp answers
      cases paged with
      | true => exact freeLarge_caches answers
      | false =>
          obtain ⟨_, _, answers⟩ := Traced.bind_eq_ok.mp answers
          cases answers
          rfl

end SlabAllocator

namespace Machine

variable {m : Machine} {allocator changed : SlabAllocator} {slab sizeClass otherClass : Nat}

namespace Session

/-- A size class without an object to spare has taken one more page for one more object. -/
structure Grown (s next : Session) (slab sizeClass : Nat) : Prop where
  full : s.population slab sizeClass =
    (s.machine.cacheOf slab sizeClass).pageCount * SizeClass.objects sizeClass
  page : (next.machine.cacheOf slab sizeClass).pageCount =
    (s.machine.cacheOf slab sizeClass).pageCount + 1
  object : next.population slab sizeClass = s.population slab sizeClass + 1

variable {s next : Session} {pages : List SlabPage} {size : Nat}

namespace Sound

/-- An object comes from a page of the class, else from a new one, and that only when no page of the class
has an object that is not in use. -/
theorem allocateObject_shape {result : Except SlabError Nat} {after : Backing} (sound : s.Sound pages)
    (found : s.machine.slabs[slab]? = some allocator) (bound : sizeClass < SizeClass.count)
    (answers : (allocator.allocateObject sizeClass s.machine.backing).outcome = .ok (result, changed, after)) :
    (∃ object, result = .ok object ∧ changed = allocator) ∨
      (∀ p ∈ classPages pages slab sizeClass, p.free = []) ∧
        ((∃ object cache, result = .ok object ∧ cache.pageCount = allocator.caches[sizeClass].pageCount + 1 ∧
            changed = { allocator with caches := allocator.caches.set sizeClass cache }) ∨
          ∃ reason later, (result = .error (.page reason) ∧ changed = allocator) ∧
            (s.machine.pages.allocate allocator.flags 1).outcome = .ok (.error reason, later)) := by
  have keeps := sound.cache_keeps found bound
  have part : (classPages pages slab sizeClass).Sublist pages := List.filter_sublist.trans List.filter_sublist
  obtain ⟨answer, walked, search, alike, walk⟩ := SlabCache.walkFrom_eq sound.stocked
    allocator.caches[sizeClass].objectSize (fun q own => part.subset own) keeps.chained
  rw [← keeps.counted] at search
  rcases walk with ⟨rfl, full⟩ | ⟨p, own, space, rfl⟩
  · refine .inr ⟨full, ?_⟩
    have stocked := sound.stocked.alike alike
    rcases SlabCache.grow_laid stocked.toLaid keeps part bound slab allocator.flags with
      ⟨page, cache, grown, answer, _, _, kept, _⟩ | ⟨reason, refused, answer, _⟩
    · rw [SlabAllocator.allocateObject_grown bound search answer] at answers
      obtain ⟨taken, _, answers⟩ := bind_eq_ok.mp answers
      cases answers
      refine .inl ⟨_, cache, rfl, ?_, rfl⟩
      rw [kept.counted, List.length_cons, keeps.counted]
    · rw [SlabAllocator.allocateObject_refused bound search answer] at answers
      cases answers
      obtain ⟨⟨denied, next⟩, asked, same⟩ := Traced.bind_eq_ok.mp (SlabCache.grow_error answer)
      cases same
      obtain ⟨later, answer⟩ := sound.allocator.refused_page stocked.allocator alike.zones asked
      exact .inr ⟨reason, later, ⟨rfl, rfl⟩, answer⟩
  · rw [SlabAllocator.allocateObject_found bound search] at answers
    obtain ⟨taken, _, answers⟩ := bind_eq_ok.mp answers
    cases answers
    exact .inl ⟨_, rfl, rfl⟩

theorem population_cons (g : SlabGrant) (small : next.small = g :: s.small)
    (own : g.slab = slab ∧ SizeClass.holding g.size = sizeClass) :
    next.population slab sizeClass = s.population slab sizeClass + 1 := by
  rw [population, objectsOf, small, List.filter_cons_of_pos (by simpa using own)]
  rfl

theorem slabAllocate_grown (sound : s.Sound pages) (performed : s.perform (.slabAllocate slab size) = .ok next)
    (other : Nat) (bound : otherClass < SizeClass.count) :
    next.machine.cacheOf other otherClass = s.machine.cacheOf other otherClass ∨
      s.Grown next other otherClass := by
  cases found : s.machine.slabs[slab]? with
  | none =>
      rw [perform_slabAllocate_none found] at performed
      cases performed
      exact .inl rfl
  | some allocator =>
      obtain ⟨⟨answer, machine⟩, answers, performed⟩ := bind_eq_ok.mp performed
      rw [slabAllocate_eq found] at answers
      obtain ⟨⟨result, changed, after⟩, asked, answers⟩ := bind_eq_ok.mp answers
      cases answers
      have kept (same : changed.caches = allocator.caches) :
          next.machine.cacheOf other otherClass = s.machine.cacheOf other otherClass := by
        rw [← cacheOf_setSlab (k := after) found same]
        cases result with
        | error reason =>
            cases performed
            rfl
        | ok addr =>
            simp only at performed
            split at performed <;> cases performed <;> rfl
      by_cases large : SizeClass.largest < size
      · rw [allocator.allocate_large _ large] at asked
        exact .inl (kept (SlabAllocator.allocateLarge_caches asked))
      · have small := Nat.le_of_not_lt large
        have holds := SizeClass.holding_lt small
        rw [allocator.allocate_small _ small] at asked
        rcases sound.allocateObject_shape found holds asked with
          ⟨object, rfl, rfl⟩ | ⟨full, ⟨object, cache, rfl, one, rfl⟩ | ⟨_, _, ⟨_, rfl⟩, _⟩⟩
        · exact .inl (kept rfl)
        · simp only [if_pos small] at performed
          cases performed
          by_cases here : other = slab ∧ otherClass = SizeClass.holding size
          · obtain ⟨rfl, rfl⟩ := here
            refine .inr ⟨sound.population_full holds full, ?_, population_cons _ rfl ⟨rfl, rfl⟩⟩
            rw [cacheOf_set found holds, cacheOf_eq found holds, one]
          · exact .inl (cacheOf_set_other found holds here)
        · exact .inl (kept rfl)

theorem perform_grown {call : Call} (sound : s.Sound pages) (allowed : s.Allowed call)
    (performed : s.perform call = .ok next) (slab : Nat) (bound : sizeClass < SizeClass.count) :
    next.machine.cacheOf slab sizeClass = s.machine.cacheOf slab sizeClass ∨ s.Grown next slab sizeClass := by
  cases call with
  | addSlab flags =>
      cases performed
      exact .inl (cacheOf_concat s.machine flags slab bound)
  | slabAllocate other size => exact sound.slabAllocate_grown performed slab bound
  | slabFree other addr =>
      cases found : s.machine.slabs[other]? with
      | none =>
          rw [perform_slabFree_none found] at performed
          cases performed
          exact .inl rfl
      | some allocator =>
          rw [perform, slabFree_eq found] at performed
          obtain ⟨⟨answer, machine⟩, answers, performed⟩ := bind_eq_ok.mp performed
          obtain ⟨⟨result, changed, after⟩, asked, answers⟩ := bind_eq_ok.mp answers
          cases answers
          have same : (s.machine.setSlab other changed after).cacheOf slab sizeClass =
              s.machine.cacheOf slab sizeClass := cacheOf_setSlab found (SlabAllocator.free_caches asked)
          cases result <;> cases performed <;> exact .inl same
  | allocatePages flags count align =>
      obtain ⟨⟨result, machine⟩, answers, performed⟩ := bind_eq_ok.mp performed
      cases align <;>
        obtain ⟨⟨granted, after⟩, _, answers⟩ := Traced.bind_eq_ok.mp answers <;>
        cases answers <;> cases result <;> cases performed <;> exact .inl rfl
  | freePages addr =>
      obtain ⟨⟨result, machine⟩, answers, performed⟩ := bind_eq_ok.mp performed
      obtain ⟨⟨freed, after⟩, _, answers⟩ := Traced.bind_eq_ok.mp answers
      cases answers
      cases result <;> cases performed <;> exact .inl rfl
  | write addr bytes =>
      cases performed
      refine .inl ?_
      rw [cacheOf, withMachine, slabs_setBytes, cacheOf]

end Sound

/-- A session with the sessions before it, the latest first, from before the first slab allocator on. -/
inductive Trail : List Session → Session → Prop
  | start {s : Session} (reached : Reached s) (fresh : s.machine.slabs = []) : Trail [] s
  | step {past : List Session} {s next : Session} {call : Call} (trail : Trail past s) (allowed : s.Allowed call)
      (performed : s.perform call = .ok next) : Trail (s :: past) next

/-- The most objects of a size class that were live in one of some sessions. -/
def peak (slab sizeClass : Nat) (sessions : List Session) : Nat :=
  (sessions.map fun s => s.population slab sizeClass).foldr max 0

variable {past later : List Session} {t : Session}

theorem peak_cons (slab sizeClass : Nat) (s : Session) (past : List Session) :
    peak slab sizeClass (s :: past) = max (s.population slab sizeClass) (peak slab sizeClass past) := rfl

theorem peak_append (below : ∀ u ∈ later, u.population slab sizeClass ≤ peak slab sizeClass past) :
    peak slab sizeClass (later ++ past) = peak slab sizeClass past := by
  induction later with
  | nil => rfl
  | cons u rest ih =>
      obtain ⟨first, others⟩ := List.forall_mem_cons.mp below
      rw [List.cons_append, peak_cons, ih others, Nat.max_eq_right first]

theorem Trail.reached (trail : Trail past s) : Reached s := by
  induction trail with
  | start reached fresh => exact reached
  | step trail allowed performed ih => exact ih.step allowed performed

theorem Reached.trail (reached : Reached s) : ∃ past, Trail past s := by
  induction reached with
  | start built created covered => exact ⟨[], .start (.start built created covered) rfl⟩
  | @step s next call reached allowed performed ih =>
      obtain ⟨past, trail⟩ := ih
      exact ⟨s :: past, trail.step allowed performed⟩

/-- In no session has a size class a page that it could do without at the peak, or one too few for it. -/
theorem Trail.bounds (trail : Trail past s) (slab : Nat) (bound : sizeClass < SizeClass.count) :
    peak slab sizeClass (s :: past) ≤
        (s.machine.cacheOf slab sizeClass).pageCount * SizeClass.objects sizeClass ∧
      (s.machine.cacheOf slab sizeClass).pageCount * SizeClass.objects sizeClass <
        peak slab sizeClass (s :: past) + SizeClass.objects sizeClass := by
  have positive := SizeClass.objects_pos bound
  induction trail with
  | @start s reached fresh =>
      obtain ⟨pages, sound⟩ := reached.sound
      have live := sound.population_le slab bound
      have noPages : (s.machine.cacheOf slab sizeClass).pageCount = 0 := by
        rw [cacheOf_none (by rw [fresh, List.getElem?_nil])]
        rfl
      rw [noPages, Nat.zero_mul] at live ⊢
      rw [peak_cons, Nat.le_zero.mp live]
      exact ⟨Nat.le_refl 0, by omega⟩
  | @step past s next call trail allowed performed ih =>
      obtain ⟨pages, sound⟩ := trail.reached.sound
      obtain ⟨_, after⟩ := (trail.reached.step allowed performed).sound
      have live := after.population_le slab bound
      rw [peak_cons]
      rcases sound.perform_grown allowed performed slab bound with same | ⟨full, page, object⟩
      · rw [same] at live ⊢
        omega
      · rw [page, Nat.succ_mul] at live ⊢
        omega

/-- Only a new page changes a cache, and no page is ever given up. -/
theorem Trail.cacheOf_later (trail : Trail (later ++ s :: past) t) (slab : Nat)
    (bound : sizeClass < SizeClass.count) :
    t.machine.cacheOf slab sizeClass = s.machine.cacheOf slab sizeClass ∨
      (s.machine.cacheOf slab sizeClass).pageCount < (t.machine.cacheOf slab sizeClass).pageCount := by
  have step {before : List Session} {u t : Session} (trail : Trail (u :: before) t) :
      t.machine.cacheOf slab sizeClass = u.machine.cacheOf slab sizeClass ∨
        (u.machine.cacheOf slab sizeClass).pageCount < (t.machine.cacheOf slab sizeClass).pageCount := by
    cases trail with
    | step trail allowed performed =>
        obtain ⟨pages, sound⟩ := trail.reached.sound
        exact (sound.perform_grown allowed performed slab bound).imp_right fun grown => by
          rw [grown.page]
          exact Nat.lt_succ_self _
  induction later generalizing t with
  | nil => exact step trail
  | cons u rest ih =>
      have earlier : Trail (rest ++ s :: past) u := by
        cases trail with
        | step trail allowed performed => exact trail
      rcases step trail with same | more
      · rw [same]
        exact ih earlier
      · rcases ih earlier with same | before
        · rw [same] at more
          exact .inr more
        · exact .inr (before.trans more)

/-- The pages and the live objects of a size class, in a session with the sessions before it. -/
structure Economical (past : List Session) (s : Session) (slab sizeClass : Nat) : Prop where
  usage : ∃ objectSize objects machine, SizeClass.objectSize sizeClass = .ok objectSize ∧
    SlabHeader.objectsPerPage objectSize = .ok objects ∧
    (s.machine.slabUsages slab [sizeClass]).outcome = .ok (some [{
      objectSize := objectSize
      pages := Word.divUp (peak slab sizeClass (s :: past)) objects
      totalObjects := Word.divUp (peak slab sizeClass (s :: past)) objects * objects
      freeObjects := Word.divUp (peak slab sizeClass (s :: past)) objects * objects -
        s.population slab sizeClass }], machine) ∧
    s.population slab sizeClass ≤ Word.divUp (peak slab sizeClass (s :: past)) objects * objects ∧
    s.machine.Unchanged machine
  /-- As long as no more objects are live than ever before, no new page is taken. -/
  steady : ∀ (later : List Session) (t : Session), Trail (later ++ s :: past) t →
    (∀ u ∈ t :: later, u.population slab sizeClass ≤ peak slab sizeClass (s :: past)) →
    t.machine.cacheOf slab sizeClass = s.machine.cacheOf slab sizeClass
  /-- A request is refused when all objects of all pages of the class are live and the page allocator
  refuses a page. -/
  request : ∀ (allocator : SlabAllocator) (size : Nat), s.machine.slabs[slab]? = some allocator →
    size ≤ SizeClass.largest → SizeClass.holding size = sizeClass →
    ∃ answer next, (s.machine.slabAllocate slab size).outcome = .ok (some answer, next.machine) ∧
      s.perform (.slabAllocate slab size) = .ok next ∧
      ∀ reason, answer = .error reason →
        (∀ page ∈ linkedPages s.machine.backing.memory (s.machine.cacheOf slab sizeClass).pageCount
            (s.machine.cacheOf slab sizeClass).firstPage,
          ∀ object, Slot page sizeClass object → ∃ g ∈ s.objectsOf slab sizeClass, g.addr = object) ∧
        (∃ refusal machine, reason = .page refusal ∧
          (s.machine.allocatePages allocator.flags 1 none).outcome = .ok (.error refusal, machine)) ∧
        s.machine.Unchanged next.machine ∧ next = s.withMachine next.machine

namespace Sound

theorem slabAllocate_refused (sound : s.Sound pages) (found : s.machine.slabs[slab]? = some allocator)
    (small : size ≤ SizeClass.largest) :
    ∃ answer next, (s.machine.slabAllocate slab size).outcome = .ok (some answer, next.machine) ∧
      s.perform (.slabAllocate slab size) = .ok next ∧
      ∀ reason, answer = .error reason →
        (∀ p ∈ classPages pages slab (SizeClass.holding size), p.free = []) ∧
        (∃ refusal machine, reason = .page refusal ∧
          (s.machine.allocatePages allocator.flags 1 none).outcome = .ok (.error refusal, machine)) ∧
        s.machine.Unchanged next.machine ∧ next = s.withMachine next.machine := by
  have asked := allocator.allocate_small s.machine.backing small
  have bound := SizeClass.holding_lt small
  rcases sound.allocateObject_sound found rfl bound with
    ⟨object, changed, after, nextPages, answer, _, _⟩ | ⟨reason, after, answer, alike⟩
  · have performed := perform_slabAllocate_ok found (asked.trans answer)
    rw [if_pos small] at performed
    refine ⟨.ok object, _, ?_, performed, nofun⟩
    rw [slabAllocate_eq found, asked, answer]
    rfl
  · refine ⟨.error reason, _, ?_, perform_slabAllocate_error found (asked.trans answer), fun other same => ?_⟩
    · rw [slabAllocate_eq found, asked, answer, ok_bind, setSlab_self found]
      rfl
    · cases same
      rcases sound.allocateObject_shape found bound answer with
        ⟨_, granted, _⟩ | ⟨full, ⟨_, _, granted, _⟩ | ⟨refusal, later, ⟨same, _⟩, denied⟩⟩
      · cases granted
      · cases granted
      · refine ⟨full, ⟨refusal, s.machine.setPages later, Except.error.inj same, ?_⟩, sound.unchanged alike, rfl⟩
        simp only [allocatePages, Traced.outcome_bind, denied, ok_bind, Traced.outcome_pure]

end Sound

theorem Trail.divUp_eq (trail : Trail past s) (slab : Nat) (bound : sizeClass < SizeClass.count) :
    Word.divUp (peak slab sizeClass (s :: past)) (SizeClass.objects sizeClass) =
      (s.machine.cacheOf slab sizeClass).pageCount :=
  Word.divUp_eq (trail.bounds slab bound).1 (trail.bounds slab bound).2

/-- However objects are asked for and given back, a size class has as many pages as the most objects that
were ever live in it take, every object of them is live or free, and a request is refused only when none
is free and no page is to be had. -/
theorem trail_economical (trail : Trail past s) (found : s.machine.slabs[slab]? = some allocator)
    (bound : sizeClass < SizeClass.count) : s.Economical past slab sizeClass := by
  obtain ⟨pages, sound⟩ := trail.reached.sound
  have count := trail.divUp_eq slab bound
  constructor
  case usage =>
    obtain ⟨machine, usage, unchanged⟩ := sound.slabUsages_eq found bound
    refine ⟨SizeClass.bytes sizeClass, SizeClass.objects sizeClass, machine, SizeClass.objectSize_eq bound,
      SizeClass.objectsPerPage_eq bound, ?_⟩
    rw [count]
    exact ⟨usage, sound.population_le slab bound, unchanged⟩
  case steady =>
    intro later t after below
    have same := after.divUp_eq slab bound
    rw [← List.cons_append, peak_append below, count] at same
    rcases after.cacheOf_later slab bound with kept | more
    · exact kept
    · exact absurd same (Nat.ne_of_lt more)
  case request =>
    intro other size here small ofClass
    subst ofClass
    obtain ⟨answer, next, answers, performed, refused⟩ := sound.slabAllocate_refused here small
    refine ⟨answer, next, answers, performed, fun reason same => ?_⟩
    obtain ⟨full, denied, unchanged⟩ := refused reason same
    exact ⟨fun page linked object slot => sound.all_live here bound full linked slot, denied, unchanged⟩

theorem trail_economical_eight : ∃ (past : List Session) (s : Session) (g : SlabGrant)
    (allocator : SlabAllocator),
    (Trail past s ∧ s.machine.slabs[g.slab]? = some allocator ∧
      SizeClass.holding g.size < SizeClass.count) ∧
    s.population g.slab (SizeClass.holding g.size) = 1 ∧
    s.Economical past g.slab (SizeClass.holding g.size) := by
  obtain ⟨s, reached, lengths⟩ := oneOfEach_reached
  obtain ⟨g, only⟩ := List.length_eq_one_iff.mp lengths.1
  have live : g ∈ s.small := only ▸ List.mem_singleton_self g
  obtain ⟨past, trail⟩ := reached.trail
  obtain ⟨pages, sound⟩ := reached.sound
  obtain ⟨p, member, serves⟩ := sound.served g live
  obtain ⟨allocator, found, _⟩ := sound.owned p member
  rw [serves.slab] at found
  have bound : SizeClass.holding g.size < SizeClass.count :=
    serves.sizeClass ▸ (sound.laid.placed member).small
  have one : s.population g.slab (SizeClass.holding g.size) = 1 := by
    simp [population, objectsOf, only]
  exact ⟨past, s, g, allocator, ⟨trail, found, bound⟩, one, trail_economical trail found bound⟩

end Session

end Machine

end ZonedMemory
