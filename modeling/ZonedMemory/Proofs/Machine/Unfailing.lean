import ZonedMemory.Proofs.Machine.Free
import ZonedMemory.Proofs.MemoryMap.Classification
import ZonedMemory.Proofs.Slab.Reports

namespace ZonedMemory

/-!
Nothing that is asked of a machine fails: every request and every question comes to an answer,
whoever reads the reports along the way. A question leaves everything as it was but for the zones
that the zone table remembers.
-/

theorem MemoryMap.list_answers {m : MemoryMap} (normal : m.Normal) (bounded : m.Bounded) :
    m.list.Answers () := by
  apply Traced.Answers.bind (.report ⟨_, rfl⟩)
  apply Traced.Answers.forM
  intro kind _
  dsimp only
  split
  · exact .pure ()
  · apply Traced.Answers.bind
    · apply Traced.Answers.report
      have total := Range.total_word (bounded kind) ((normal kind).spaced.imp Nat.le_of_lt)
      simp only [Event.text, MapEvent.text, RegionSet.totalSize, Word.sum_eq_ok.mpr ⟨total, rfl⟩, ok_bind]
      exact ⟨_, rfl⟩
    · apply Traced.Answers.forM
      intro r member
      apply Traced.Answers.report
      obtain ⟨range, text⟩ := Range.text_written (bounded kind r member)
      simp only [Event.text, MapEvent.text, text, ok_bind]
      exact ⟨_, rfl⟩

namespace SlabAllocator

variable {a : SlabAllocator} {own pages : List SlabPage} {large : List LargeAllocation} {k : Backing}
  {others : List Block} {sizeClasses : List Nat}

theorem usages_answers (keeps : a.Keeps own large) (part : own.Sublist pages)
    (stocked : k.Stocked pages others) (known : ∀ sizeClass ∈ sizeClasses, sizeClass < SizeClass.count) :
    ∃ usages next, (a.usages sizeClasses k).Answers (usages, next) ∧ Backing.Alike k next := by
  induction sizeClasses generalizing k with
  | nil => exact ⟨[], k, .pure _, .refl k⟩
  | cons sizeClass rest ih =>
      obtain ⟨bound, known⟩ := List.forall_mem_cons.mp known
      obtain ⟨next, counted, alike⟩ := usage_eq keeps part stocked bound
      obtain ⟨usages, last, answers, later⟩ := ih (stocked.alike alike) known
      have used := Traced.Answers.mk (a.usage_written sizeClass k) counted
      exact ⟨_, last, used.bind (answers.bind (.pure _)), alike.trans later⟩

theorem listCaches_answers (keeps : a.Keeps own large) (part : own.Sublist pages)
    (stocked : k.Stocked pages others) (known : ∀ sizeClass ∈ sizeClasses, sizeClass < SizeClass.count) :
    ∃ next, (a.listCaches sizeClasses k).Answers next ∧ Backing.Alike k next := by
  induction sizeClasses generalizing k with
  | nil => exact ⟨k, .pure _, .refl k⟩
  | cons sizeClass rest ih =>
      obtain ⟨bound, known⟩ := List.forall_mem_cons.mp known
      obtain ⟨next, counted, alike⟩ := usage_eq keeps part stocked bound
      obtain ⟨last, answers, later⟩ := ih (stocked.alike alike) known
      have used := Traced.Answers.mk (a.usage_written sizeClass k) counted
      refine ⟨last, used.bind ?_, alike.trans later⟩
      dsimp only
      split
      · exact answers
      · exact .bind (.report ⟨_, rfl⟩) answers

theorem large_total (keeps : a.Keeps own large) (modest : ∀ entry ∈ large, entry.pages ≤ 2 ^ Order.top) :
    (a.large.entries.map LargeAllocation.pages).sum ≤ LargeTable.capacity * 2 ^ Order.top := by
  have few : a.large.entries.length ≤ LargeTable.capacity := keeps.large.counted ▸ keeps.large.live_le
  have each : ∀ count ∈ a.large.entries.map LargeAllocation.pages, count ≤ 2 ^ Order.top := by
    intro count listed
    obtain ⟨entry, member, rfl⟩ := List.mem_map.mp listed
    exact modest entry (keeps.large.listed.mem_iff.mp member)
  have bounded := List.sum_le_card_nsmul _ _ each
  rw [List.length_map, Nat.nsmul_eq_mul] at bounded
  exact bounded.trans (Nat.mul_le_mul_right _ few)

theorem list_answers (keeps : a.Keeps own large) (part : own.Sublist pages)
    (stocked : k.Stocked pages others) (modest : ∀ entry ∈ large, entry.pages ≤ 2 ^ Order.top) :
    ∃ next, (a.list k).Answers next ∧ Backing.Alike k next := by
  have known : ∀ sizeClass ∈ List.range SizeClass.count, sizeClass < SizeClass.count :=
    fun _ listed => List.mem_range.mp listed
  obtain ⟨next, answers, alike⟩ := listCaches_answers keeps part stocked known
  have total := large_total keeps modest
  have bytes := (Nat.mul_le_mul_right pageSize total).trans_lt (show _ < 2 ^ 64 by decide)
  have summed := Word.sum_eq_ok.mpr ⟨total.trans_lt (show _ < 2 ^ 64 by decide), rfl⟩
  refine ⟨next, .bind (.report ⟨_, rfl⟩)
    (answers.bind (.bind (.lift summed) (.bind (.report ?_) (.pure next)))), alike⟩
  simp only [Event.text, SlabEvent.text, Word.mul_eq bytes, ok_bind]
  exact ⟨_, rfl⟩

end SlabAllocator

namespace Machine

/-- What can be asked about a machine, by the type of the answer. -/
inductive LookUp : Type → Type
  | zoneFor (bytes : Nat) (flags : ZoneFlags) : LookUp (Option Zone)
  | zoneOf (addr : Nat) : LookUp (Option Zone)
  | usages (slab : Nat) (sizeClasses : List Nat) : LookUp (Option (List SlabUsage))
  | listSlab (slab : Nat) : LookUp (Option Unit)
  | listPages (blocks : Bool) : LookUp Unit

/-- The size classes that are asked about exist. -/
def LookUp.Known {α : Type} : LookUp α → Prop
  | .usages _ sizeClasses => ∀ sizeClass ∈ sizeClasses, sizeClass < SizeClass.count
  | _ => True

def ask {α : Type} (m : Machine) : LookUp α → Traced (α × Machine)
  | .zoneFor bytes flags => return m.zoneFor bytes flags
  | .zoneOf addr => liftM (m.zoneOf addr)
  | .usages slab sizeClasses => m.slabUsages slab sizeClasses
  | .listSlab slab => m.slabList slab
  | .listPages blocks => do
      m.pages.list blocks
      return ((), m)

/-- An operation that comes to an answer, whoever reads along, and stores nothing outside the zones. -/
structure Handles {α : Type} (m : Machine) (operation : Traced (α × Machine)) : Prop where
  completes : operation.Completes
  confined : ∀ answer next, operation.outcome = .ok (answer, next) → ∀ addr, ¬ m.pages.Covers addr →
    next.backing.memory.byte addr = m.backing.memory.byte addr

/-- The machine handles all requests, and the questions of a kind. -/
structure Answering (m : Machine) (Asked : {α : Type} → LookUp α → Prop) : Prop where
  allocatePages : ∀ flags count align, m.Handles (m.allocatePages flags count align)
  freePages : ∀ addr, m.Handles (m.freePages addr)
  slabAllocate : ∀ slab size, m.Handles (m.slabAllocate slab size)
  slabFree : ∀ slab addr, m.Handles (m.slabFree slab addr)
  ask : ∀ {α : Type} (query : LookUp α), Asked query → m.Handles (m.ask query)

namespace Session

variable {s next : Session} {pages : List SlabPage} {slab size addr : Nat}

/-- Sessions in which clients also look things up, at any time. -/
inductive Occurs : Session → Prop
  | reached {s : Session} (reached : Reached s) : Occurs s
  | perform {s next : Session} {call : Call} (occurs : Occurs s) (allowed : s.Allowed call)
      (performed : s.perform call = .ok next) : Occurs next
  | ask {s : Session} {α : Type} {query : LookUp α} {answer : α} {next : Machine} (occurs : Occurs s)
      (known : query.Known) (asked : (s.machine.ask query).outcome = .ok (answer, next)) :
      Occurs (s.withMachine next)

theorem Follows.handles {α : Type} {operation : Traced (α × Machine)} {answer : α}
    (follows : s.Follows next) (written : operation.Written)
    (came : operation.outcome = .ok (answer, next.machine)) : s.machine.Handles operation := by
  constructor
  · exact written.completes came
  · intro other after asked addr outside
    obtain ⟨_, rfl⟩ := Prod.mk.inj (Except.ok.inj (came.symm.trans asked))
    exact follows.confined addr outside

theorem allocatePages_performed {flags : ZoneFlags} {count : Nat} {align : Option Nat}
    (performed : s.perform (.allocatePages flags count align) = .ok next) :
    ∃ answer, (s.machine.allocatePages flags count align).outcome = .ok (answer, next.machine) := by
  obtain ⟨⟨answer, machine⟩, came, performed⟩ := bind_eq_ok.mp performed
  refine ⟨answer, came.trans ?_⟩
  cases answer with
  | error reason => exact Except.ok.inj performed ▸ rfl
  | ok addr => exact Except.ok.inj performed ▸ rfl

theorem slabAllocate_performed (performed : s.perform (.slabAllocate slab size) = .ok next) :
    ∃ answer, (s.machine.slabAllocate slab size).outcome = .ok (answer, next.machine) := by
  obtain ⟨⟨answer, machine⟩, came, performed⟩ := bind_eq_ok.mp performed
  refine ⟨answer, came.trans ?_⟩
  cases answer with
  | none => exact Except.ok.inj performed ▸ rfl
  | some answer =>
      cases answer with
      | error reason => exact Except.ok.inj performed ▸ rfl
      | ok addr =>
          dsimp only at performed
          split at performed
          · exact Except.ok.inj performed ▸ rfl
          · exact Except.ok.inj performed ▸ rfl

theorem slabFree_performed (performed : s.perform (.slabFree slab addr) = .ok next) :
    ∃ answer, (s.machine.slabFree slab addr).outcome = .ok (answer, next.machine) := by
  obtain ⟨⟨answer, machine⟩, came, performed⟩ := bind_eq_ok.mp performed
  refine ⟨answer, came.trans ?_⟩
  cases answer with
  | none => exact Except.ok.inj performed ▸ rfl
  | some answer =>
      cases answer with
      | error reason => exact Except.ok.inj performed ▸ rfl
      | ok done => exact Except.ok.inj performed ▸ rfl

namespace Sound

theorem large_pages {g : SlabGrant} (sound : s.Sound pages) (live : g ∈ s.large) :
    g.entry.pages ≤ 2 ^ Order.top := by
  have member : g.block ∈ pages.map SlabPage.block ++ s.blocks :=
    List.mem_append_right _ (block_of_large live)
  obtain ⟨z, listed, owns⟩ := sound.allocator.serving.owned _ member
  have small := (sound.allocator.serving.sound z listed).order_le member owns
  exact (Nat.le_pow_clog Nat.one_lt_two _).trans (Nat.pow_le_pow_right Nat.two_pos small)

theorem slabUsages_answers {slab : Nat} {sizeClasses : List Nat} (sound : s.Sound pages)
    (known : ∀ sizeClass ∈ sizeClasses, sizeClass < SizeClass.count) :
    ∃ usages k, (s.machine.slabUsages slab sizeClasses).Answers
        (usages, { s.machine with backing := k }) ∧
      Backing.Alike s.machine.backing k := by
  unfold slabUsages
  cases found : s.machine.slabs[slab]? with
  | none => exact ⟨none, s.machine.backing, .pure _, .refl _⟩
  | some allocator =>
      obtain ⟨usages, k, answers, alike⟩ := SlabAllocator.usages_answers
        (sound.slabs slab allocator found) List.filter_sublist sound.stocked known
      exact ⟨some usages, k, answers.bind (.pure _), alike⟩

theorem slabList_answers (sound : s.Sound pages) (slab : Nat) :
    ∃ done k, (s.machine.slabList slab).Answers (done, { s.machine with backing := k }) ∧
      Backing.Alike s.machine.backing k := by
  unfold slabList
  cases found : s.machine.slabs[slab]? with
  | none => exact ⟨none, s.machine.backing, .pure _, .refl _⟩
  | some allocator =>
      have modest : ∀ entry ∈ (s.large.filter fun g => g.slab = slab).map SlabGrant.entry,
          entry.pages ≤ 2 ^ Order.top := by
        intro entry listed
        obtain ⟨g, own, rfl⟩ := List.mem_map.mp listed
        exact sound.large_pages (List.mem_filter.mp own).1
      obtain ⟨k, answers, alike⟩ := SlabAllocator.list_answers
        (sound.slabs slab allocator found) List.filter_sublist sound.stocked modest
      exact ⟨some (), k, answers.bind (.pure _), alike⟩

/-- A question is answered, and nothing changes but which zones the zone table remembers. -/
theorem ask_answers {α : Type} {query : LookUp α} (sound : s.Sound pages) (known : query.Known) :
    ∃ answer k, (s.machine.ask query).Answers (answer, { s.machine with backing := k }) ∧
      Backing.Alike s.machine.backing k := by
  cases query with
  | zoneFor bytes flags =>
      have same := (s.machine.pages.zones.choose_mem bytes flags).1
      exact ⟨_, _, .pure _, rfl, same, ⟨rfl, rfl, congrArg _ same⟩⟩
  | zoneOf addr =>
      obtain ⟨found, table, computed, same, _⟩ := sound.allocator.serving.find_eq addr
      refine ⟨found, { s.machine.backing with pages := { s.machine.pages with zones := table } }, .lift ?_,
        rfl, same, ⟨rfl, rfl, congrArg _ same⟩⟩
      simp only [zoneOf, computed, ok_bind]
      rfl
  | usages slab sizeClasses => exact sound.slabUsages_answers known
  | listSlab slab => exact sound.slabList_answers slab
  | listPages blocks =>
      exact ⟨(), s.machine.backing, (sound.allocator.list_answers blocks).bind (.pure _), .refl _⟩

theorem ask_handled {α : Type} {query : LookUp α} (sound : s.Sound pages) (known : query.Known) :
    s.machine.Handles (s.machine.ask query) := by
  obtain ⟨answer, k, answers, alike⟩ := sound.ask_answers known
  exact (follows_alike alike).handles answers.toWritten answers.outcome

theorem allocatePages_handled (sound : s.Sound pages) (flags : ZoneFlags) (count : Nat)
    (align : Option Nat) : s.machine.Handles (s.machine.allocatePages flags count align) := by
  have written : (s.machine.allocatePages flags count align).Written := by
    cases align with
    | none => exact (sound.allocator.allocateAligned_written flags count pageSize).bind fun _ _ => .pure _
    | some align => exact (sound.allocator.allocateAligned_written flags count align).bind fun _ _ => .pure _
  obtain ⟨next, performed, _, follows⟩ := sound.allocatePages_sound flags count align
  obtain ⟨answer, came⟩ := allocatePages_performed performed
  exact follows.handles written came

theorem freePages_handled (sound : s.Sound pages) (addr : Nat) :
    s.machine.Handles (s.machine.freePages addr) := by
  have written : (s.machine.freePages addr).Written :=
    (sound.allocator.free_written addr).bind fun _ _ => .pure _
  obtain ⟨answer, after, freed, kin⟩ : ∃ answer after,
      (s.machine.pages.free addr).outcome = .ok (answer, after) ∧ PageAllocator.Kin s.machine.pages after := by
    rcases PageAllocator.free_sound sound.allocator addr with
      ⟨after, freed, _, kin, _⟩ | ⟨reason, after, refused, _, _, kin⟩
    · exact ⟨_, after, freed, kin⟩
    · exact ⟨_, after, refused, kin⟩
  have follows : s.Follows (s.withMachine (s.machine.setPages after)) := follows_pages kin rfl
  exact follows.handles written (Traced.bind_eq_ok.mpr ⟨_, freed, rfl⟩)

theorem slabAllocate_handled (sound : s.Sound pages) (slab size : Nat) :
    s.machine.Handles (s.machine.slabAllocate slab size) := by
  have written : (s.machine.slabAllocate slab size).Written := by
    unfold slabAllocate
    split
    · exact .pure _
    · rename_i allocator found
      exact (SlabAllocator.allocate_written sound.stocked (sound.slabs slab allocator found)
        List.filter_sublist size).bind fun _ _ => .pure _
  obtain ⟨next, _, performed, _, follows⟩ := sound.slabAllocate_sound slab size
  obtain ⟨answer, came⟩ := slabAllocate_performed performed
  exact follows.handles written came

theorem slabFree_handled (sound : s.Sound pages) (slab addr : Nat) :
    s.machine.Handles (s.machine.slabFree slab addr) := by
  have written : (s.machine.slabFree slab addr).Written := by
    unfold slabFree
    split
    · exact .pure _
    · exact (SlabAllocator.free_written sound.allocator _ addr).bind fun _ _ => .pure _
  obtain ⟨next, _, performed, _, follows⟩ := sound.slabFree_sound slab addr
  obtain ⟨answer, came⟩ := slabFree_performed performed
  exact follows.handles written came

end Sound

theorem Occurs.sound (occurs : Occurs s) : ∃ pages, s.Sound pages := by
  induction occurs with
  | reached reached => exact reached.sound
  | perform _ allowed performed ih =>
      obtain ⟨pages, sound⟩ := ih
      obtain ⟨next, nextPages, answer, after, _⟩ := sound.perform_sound allowed
      rw [performed] at answer
      exact ⟨nextPages, Except.ok.inj answer ▸ after⟩
  | ask _ known asked ih =>
      obtain ⟨pages, sound⟩ := ih
      obtain ⟨answer, k, answers, alike⟩ := sound.ask_answers known
      obtain ⟨_, rfl⟩ := Prod.mk.inj (Except.ok.inj (asked.symm.trans answers.outcome))
      exact ⟨pages, sound.alike alike⟩

/-- At any time of a run of clients that keep to their own memory, every request and every question is
answered whatever its arguments are and at whatever level reports are read, if only the size classes
asked about exist. It may be that no memory can be reached but that of the zones, so no access goes
elsewhere. A map can be listed if its ranges end inside the address space. -/
theorem occurs_answering (occurs : Occurs s) :
    s.machine.Answering LookUp.Known ∧ ∀ map : MemoryMap, map.Built → map.Bounded → map.list.Completes := by
  obtain ⟨pages, sound⟩ := occurs.sound
  constructor
  · constructor
    · exact sound.allocatePages_handled
    · exact sound.freePages_handled
    · exact sound.slabAllocate_handled
    · exact sound.slabFree_handled
    · exact fun query known => sound.ask_handled known
  · intro map built bounded
    exact (MemoryMap.list_answers built.normal bounded).completes

theorem occurs_answering_eight : ∃ s : Session, Occurs s ∧
    (s.small.length = 1 ∧ s.large.length = 1 ∧ s.direct.length = 1) ∧
    s.machine.Answering LookUp.Known ∧
    ∀ map : MemoryMap, map.Built → map.Bounded → map.list.Completes := by
  obtain ⟨s, reached, lengths⟩ := oneOfEach_reached
  exact ⟨s, .reached reached, lengths, occurs_answering (.reached reached)⟩

/-- There is no tenth size class to ask about. -/
theorem not_all_answered : ¬ ∀ s, Occurs s → s.machine.Answering fun _ => True := by
  intro claimed
  obtain ⟨s, reached, lengths⟩ := oneOfEach_reached
  obtain ⟨g, only⟩ := List.length_eq_one_iff.mp lengths.1
  obtain ⟨pages, sound⟩ := reached.sound
  obtain ⟨allocator, found, _⟩ := sound.separated.zoned g (only ▸ List.mem_singleton_self g)
  have answering := claimed s (.reached reached)
  obtain ⟨answer, came⟩ := (answering.ask (.usages g.slab [9]) trivial).completes.outcome
  have missing : allocator.cache 9 = .error (.outOfBounds SizeClass.count 9) := rfl
  simp only [Machine.ask, slabUsages, found, SlabAllocator.usages, SlabAllocator.usage, Traced.outcome_bind,
    Traced.outcome_lift, missing, error_bind] at came
  cases came

end Session

end Machine

end ZonedMemory
