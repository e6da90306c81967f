import ZonedMemory.Proofs.Slab.Cache

namespace ZonedMemory

/-!
The usage of a cache adds up what the headers of its pages say. There are too few pages for the sums
to leave the words, so they are always computed, and look-ups in the zones do not change them.
-/

namespace SlabPage

/-- The objects of the page that are not on its free list. -/
def used (p : SlabPage) : List Nat := (slots p.addr p.sizeClass).filter fun object => object ∉ p.free

variable {m : Memory} {p : SlabPage} {object : Nat}

theorem mem_used : object ∈ p.used ↔ Slot p.addr p.sizeClass object ∧ object ∉ p.free := by
  rw [used, List.mem_filter, mem_slots, decide_eq_true_eq]

theorem used_add_free (formatted : Formatted m p) :
    p.used.length + p.free.length = SizeClass.objects p.sizeClass := by
  have apart : (p.used ++ p.free).Nodup := by
    apply List.Nodup.append ((slots_nodup ..).filter _) formatted.distinct
    intro object used free
    exact (mem_used.mp used).2 free
  have all : (p.used ++ p.free).Perm (slots p.addr p.sizeClass) := by
    rw [List.perm_ext_iff_of_nodup apart (slots_nodup ..)]
    intro object
    rw [List.mem_append, mem_used, mem_slots]
    constructor
    · intro either
      rcases either with ⟨slot, _⟩ | free
      · exact slot
      · exact formatted.slots object free
    · intro slot
      by_cases free : object ∈ p.free
      · exact .inr free
      · exact .inl ⟨slot, free⟩
  rw [← List.length_append, all.length_eq, slots_length]

end SlabPage

namespace SlabUsage

def count (usage : SlabUsage) (p : SlabPage) : SlabUsage :=
  { usage with
    pages := usage.pages + 1
    totalObjects := usage.totalObjects + SizeClass.objects p.sizeClass
    freeObjects := usage.freeObjects + p.free.length }

/-- No page has counted for more than a page has room for. -/
structure Within (usage : SlabUsage) (pages : Nat) : Prop where
  pages : usage.pages + pages < 2 ^ 52
  totalObjects : usage.totalObjects ≤ usage.pages * pageSize
  freeObjects : usage.freeObjects ≤ usage.pages * pageSize

variable {m : Memory} {own : List SlabPage} {sizeClass : Nat}

/-- The free objects of some pages. -/
def vacancies (own : List SlabPage) : Nat := (own.map fun p => p.free.length).sum

theorem foldl_count (ofClass : ∀ p ∈ own, p.sizeClass = sizeClass) (usage : SlabUsage) :
    own.foldl count usage = { usage with
      pages := usage.pages + own.length
      totalObjects := usage.totalObjects + own.length * SizeClass.objects sizeClass
      freeObjects := usage.freeObjects + vacancies own } := by
  induction own generalizing usage with
  | nil => simp [vacancies]
  | cons p rest ih =>
      obtain ⟨first, later⟩ := List.forall_mem_cons.mp ofClass
      rw [List.foldl_cons, ih later]
      simp only [count, first, vacancies, List.length_cons, List.map_cons, List.sum_cons, mk.injEq, true_and]
      refine ⟨by omega, ?_, by omega⟩
      rw [Nat.succ_mul]
      omega

theorem used_add_vacancies (formatted : ∀ p ∈ own, p.Formatted m)
    (ofClass : ∀ p ∈ own, p.sizeClass = sizeClass) :
    (own.flatMap SlabPage.used).length + vacancies own = own.length * SizeClass.objects sizeClass := by
  induction own with
  | nil => simp [vacancies]
  | cons p rest ih =>
      obtain ⟨here, later⟩ := List.forall_mem_cons.mp formatted
      obtain ⟨first, others⟩ := List.forall_mem_cons.mp ofClass
      have page := SlabPage.used_add_free here
      have counted := ih later others
      simp only [vacancies] at counted
      rw [first] at page
      simp only [vacancies, List.flatMap_cons, List.length_append, List.length_cons, List.map_cons,
        List.sum_cons, Nat.succ_mul]
      omega

end SlabUsage

namespace SlabCache

variable {k : Backing} {pages chain : List SlabPage} {others : List Block} {p : SlabPage}
  {c : SlabCache} {usage : SlabUsage} {link sizeClass : Nat}

theorem free_le (stocked : k.Stocked pages others) (member : p ∈ pages) :
    p.free.length ≤ SizeClass.objects p.sizeClass ∧ SizeClass.objects p.sizeClass ≤ pageSize := by
  have formatted := stocked.formatted p member
  exact ⟨SlabPage.slots_length_le formatted.slots formatted.distinct,
    (SizeClass.objects_lt formatted.placed.small).le⟩

theorem visitForUsage_eq (stocked : k.Stocked pages others) (member : p ∈ pages) {left : Nat}
    (within : usage.Within (left + 1)) :
    (visitForUsage usage p.addr p.header).outcome = .ok (usage.count p, false) ∧
      (usage.count p).Within left := by
  obtain ⟨free, room⟩ := free_le stocked member
  obtain ⟨pages, total, unused⟩ := within
  change usage.totalObjects ≤ usage.pages * 4096 at total
  change usage.freeObjects ≤ usage.pages * 4096 at unused
  change SizeClass.objects p.sizeClass ≤ 4096 at room
  have count := Word.add_eq (show usage.pages + 1 < 2 ^ 64 by omega)
  have objects := Word.add_eq
    (show usage.totalObjects + SizeClass.objects p.sizeClass < 2 ^ 64 by omega)
  have freeObjects := Word.add_eq (show usage.freeObjects + p.free.length < 2 ^ 64 by omega)
  constructor
  · simp only [visitForUsage, SlabPage.header, Traced.outcome_bind, Traced.outcome_lift, count, objects,
      freeObjects, ok_bind, Traced.outcome_pure]
    rfl
  · refine ⟨?_, ?_, ?_⟩ <;> simp only [SlabUsage.count, pageSize] <;> omega

theorem walkFrom_usage (stocked : k.Stocked pages others) (objectSize : Nat)
    (members : ∀ p ∈ chain, p ∈ pages) (chained : Chained link chain) (within : usage.Within chain.length) :
    ∃ after, (walkFrom objectSize visitForUsage chain.length link usage k).outcome =
        .ok (chain.foldl SlabUsage.count usage, after) ∧ Backing.Alike k after := by
  induction chain generalizing link usage k with
  | nil => exact ⟨k, rfl, .refl k⟩
  | cons p rest ih =>
      obtain ⟨rfl, chained⟩ := chained
      have member := members p (List.mem_cons_self ..)
      obtain ⟨visited, within⟩ := visitForUsage_eq stocked member within
      obtain ⟨next, alike, entered⟩ := walkFrom_intact stocked member visited objectSize rest.length
      obtain ⟨last, walked, later⟩ :=
        ih (stocked.alike alike) (fun q listed => members q (List.mem_cons_of_mem _ listed)) chained within
      exact ⟨last, entered.trans walked, alike.trans later⟩

theorem usage_eq (stocked : k.Stocked pages others) (keeps : c.Keeps sizeClass chain)
    (part : chain.Sublist pages) :
    ∃ after, (c.usage k).outcome =
        .ok (chain.foldl SlabUsage.count { objectSize := SizeClass.bytes sizeClass }, after) ∧
      Backing.Alike k after := by
  have few := part.length_le.trans_lt stocked.length_lt
  have within : SlabUsage.Within { objectSize := SizeClass.bytes sizeClass } chain.length :=
    ⟨by simpa using few, Nat.zero_le _, Nat.zero_le _⟩
  rw [usage, walk, keeps.counted, keeps.objectSize]
  exact walkFrom_usage stocked _ (fun p listed => part.subset listed) keeps.chained within

end SlabCache

end ZonedMemory
