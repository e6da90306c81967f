import ZonedMemory.Proofs.Buddy.Chain

namespace ZonedMemory.Buddy

/-!
The free lists are sequences of pages. Whatever is done to the links of one list is done to the
sequence that it spells out, and no other list notices; so a client of the lists who changes them any
number of times gets the answers that sequences would give.
-/

/-- One list has become another sequence; all other lists and all states are as they were. -/
structure Rechained (b after : Buddy) (chains : Nat → List Nat) (order : Nat) (chain : List Nat) :
    Prop where
  extent : SameExtent b after
  states : after.stateAt? = b.stateAt?
  listed : after.Listed (Function.update chains order chain)

/-- What each change of a list answers, and what it makes of the list. -/
structure Sequential (b : Buddy) (chains : Nat → List Nat) : Prop where
  push : ∀ index order, index < b.pages.size → order < Order.count → (∀ other, index ∉ chains other) →
    ∃ after, b.push index order = .ok after ∧ b.Rechained after chains order (index :: chains order)
  pop_nil : ∀ order, order < Order.count → chains order = [] → b.pop order = .ok (none, b)
  pop_cons : ∀ order index rest, order < Order.count → chains order = index :: rest →
    ∃ after, b.pop order = .ok (some index, after) ∧ b.Rechained after chains order rest
  unlink_member : ∀ index order, order < Order.count → index ∈ chains order →
    ∃ after, b.unlink index order = .ok (true, after) ∧
      b.Rechained after chains order ((chains order).erase index)
  unlink_absent : ∀ index order, order < Order.count → index ∉ chains order →
    b.unlink index order = .ok (false, b)

/-- A change to one of the free lists. -/
inductive Change where
  | push (index order : Nat)
  | pop (order : Nat)
  | unlink (index order : Nat)

/-- What a change answers. -/
inductive Answer where
  | pushed
  | popped (index : Option Nat)
  | unlinked (found : Bool)
  deriving DecidableEq

namespace Change

/-- Makes the change to the links. -/
def make (b : Buddy) : Change → Except Fault (Answer × Buddy)
  | push index order => do
      let b ← b.push index order
      return (.pushed, b)
  | pop order => do
      let (index, b) ← b.pop order
      return (.popped index, b)
  | unlink index order => do
      let (found, b) ← b.unlink index order
      return (.unlinked found, b)

/-- Makes the same change to sequences. -/
def spell (chains : Nat → List Nat) : Change → Answer × (Nat → List Nat)
  | push index order => (.pushed, Function.update chains order (index :: chains order))
  | pop order => (.popped (chains order).head?, Function.update chains order (chains order).tail)
  | unlink index order =>
      (.unlinked (decide (index ∈ chains order)),
        Function.update chains order ((chains order).erase index))

/-- The change is to one of the lists, and only a page on none of them is put on one. -/
def Allowed (pages : Nat) (chains : Nat → List Nat) : Change → Prop
  | push index order => order < Order.count ∧ index < pages ∧ ∀ other, index ∉ chains other
  | pop order => order < Order.count
  | unlink _ order => order < Order.count

/-- Makes changes to the links, one after the other. -/
def run (b : Buddy) : List Change → Except Fault (List Answer × Buddy)
  | [] => pure ([], b)
  | change :: rest => do
      let (answer, b) ← change.make b
      let (answers, b) ← run b rest
      return (answer :: answers, b)

/-- Makes the same changes to sequences. -/
def spellAll (chains : Nat → List Nat) : List Change → List Answer × (Nat → List Nat)
  | [] => ([], chains)
  | change :: rest =>
      let (answer, chains) := change.spell chains
      let (answers, chains) := spellAll chains rest
      (answer :: answers, chains)

/-- Each change is allowed when its turn comes. -/
def AllAllowed (pages : Nat) (chains : Nat → List Nat) : List Change → Prop
  | [] => True
  | change :: rest => change.Allowed pages chains ∧ AllAllowed pages (change.spell chains).2 rest

end Change

variable {b : Buddy} {chains : Nat → List Nat} {order : Nat}

theorem pop_nil (listed : b.Listed chains) (small : order < Order.count) (empty : chains order = []) :
    b.pop order = .ok (none, b) := by
  have head : b.lists[order].head = none := by
    have linked := listed.linked order small
    rwa [empty] at linked
  simp only [pop, freeList_eq small, ok_bind, head, pure_eq_ok]

theorem Listed.sequential (listed : b.Listed chains) (few : b.pages.size < PageRecord.noLink) :
    b.Sequential chains where
  push index order bound small absent := by
    obtain ⟨after, pushed, extent, states, later⟩ := push_listed listed few bound small absent
    exact ⟨after, pushed, extent, states, later⟩
  pop_nil order small empty := pop_nil listed small empty
  pop_cons order index rest small spelled := by
    obtain ⟨after, popped, extent, states, later⟩ := pop_listed listed small spelled
    exact ⟨after, popped, extent, states, later⟩
  unlink_member index order small member := by
    obtain ⟨after, unlinked, extent, states, later⟩ := unlink_listed listed few member
    exact ⟨after, unlinked, extent, states, later⟩
  unlink_absent index order small absent := unlink_absent listed small absent

/-- One change to the links is the same change to the sequences. -/
theorem Sequential.make (sequential : b.Sequential chains) (listed : b.Listed chains) {change : Change}
    (allowed : change.Allowed b.pages.size chains) :
    ∃ after, change.make b = .ok ((change.spell chains).1, after) ∧ SameExtent b after ∧
      after.stateAt? = b.stateAt? ∧ after.Listed (change.spell chains).2 := by
  cases change with
  | push index order =>
      obtain ⟨small, bound, absent⟩ := allowed
      obtain ⟨after, pushed, rechained⟩ := sequential.push index order bound small absent
      exact ⟨after, by simp only [Change.make, pushed, ok_bind, pure_eq_ok, Change.spell],
        rechained.extent, rechained.states, rechained.listed⟩
  | pop order =>
      have small : order < Order.count := allowed
      cases spelled : chains order with
      | nil =>
          have popped := sequential.pop_nil order small spelled
          refine ⟨b, by simp [Change.make, popped, Change.spell, spelled], .refl b, rfl, ?_⟩
          rw [Change.spell, spelled, List.tail_nil, ← spelled, Function.update_eq_self]
          exact listed
      | cons index rest =>
          obtain ⟨after, popped, rechained⟩ := sequential.pop_cons order index rest small spelled
          refine ⟨after, by simp [Change.make, popped, Change.spell, spelled],
            rechained.extent, rechained.states, ?_⟩
          rw [Change.spell, spelled, List.tail_cons]
          exact rechained.listed
  | unlink index order =>
      have small : order < Order.count := allowed
      by_cases member : index ∈ chains order
      · obtain ⟨after, unlinked, rechained⟩ := sequential.unlink_member index order small member
        exact ⟨after, by simp [Change.make, unlinked, Change.spell, member],
          rechained.extent, rechained.states, rechained.listed⟩
      · have unlinked := sequential.unlink_absent index order small member
        refine ⟨b, by simp [Change.make, unlinked, Change.spell, member], .refl b, rfl, ?_⟩
        rw [Change.spell, List.erase_of_not_mem member, Function.update_eq_self]
        exact listed

theorem Listed.run (listed : b.Listed chains) (few : b.pages.size < PageRecord.noLink)
    {changes : List Change} (allowed : Change.AllAllowed b.pages.size chains changes) :
    ∃ after, Change.run b changes = .ok ((Change.spellAll chains changes).1, after) ∧
      SameExtent b after ∧ after.stateAt? = b.stateAt? ∧
      after.Listed (Change.spellAll chains changes).2 := by
  induction changes generalizing b chains with
  | nil => exact ⟨b, rfl, .refl b, rfl, listed⟩
  | cons change rest ih =>
      obtain ⟨first, later⟩ := allowed
      obtain ⟨next, made, extent, states, relisted⟩ := (listed.sequential few).make listed first
      obtain ⟨after, ran, lastExtent, lastStates, result⟩ :=
        ih relisted (by rwa [extent.size]) (by rwa [extent.size])
      refine ⟨after, ?_, extent.trans lastExtent, lastStates.trans states, result⟩
      simp only [Change.run, made, ok_bind, ran, pure_eq_ok, Change.spellAll]

/-- The free lists of a buddy are sequences of pages, for one change and for any number of changes after
one another. No buddy is set up with more pages than a link can name. -/
theorem lists_sequential (listed : b.Listed chains) (few : b.pages.size < PageRecord.noLink) :
    b.Sequential chains ∧
      ∀ changes, Change.AllAllowed b.pages.size chains changes →
        ∃ after, Change.run b changes = .ok ((Change.spellAll chains changes).1, after) ∧
          SameExtent b after ∧ after.stateAt? = b.stateAt? ∧
          after.Listed (Change.spellAll chains changes).2 :=
  ⟨listed.sequential few, fun _ allowed => listed.run few allowed⟩

/-- Five pages, of which the list of the lowest order has three and the next one has one. -/
def threaded : Buddy where
  range := ⟨12288, 20480⟩
  firstFrame := 3
  pages := #[⟨4, 0, 0, 0⟩, .tail, ⟨0, 0, 0, 0⟩, ⟨PageRecord.noLink, 0, 1, 0⟩, ⟨PageRecord.noLink, 0, 0, 0⟩]
  lists := ((Vector.replicate Order.count FreeList.empty).set 0 ⟨some 2, 3⟩).set 1 ⟨some 3, 1⟩
  freePages := 5

def threads : Nat → List Nat
  | 0 => [2, 0, 4]
  | 1 => [3]
  | _ => []

theorem mem_threads {index : Nat} (member : index ∈ threads order) :
    order = 0 ∧ index ≠ 3 ∨ order = 1 ∧ index = 3 := by
  match order with
  | 0 =>
      simp only [threads, List.mem_cons, List.not_mem_nil, or_false] at member
      omega
  | 1 => simpa [threads] using member
  | _ + 2 => simp [threads] at member

theorem threaded_listed : threaded.Listed threads := by
  refine ⟨fun order bound => ?_, fun order bound => ?_, ?_, fun order large => ?_⟩
  · rcases order with _ | _ | order
    · exact ⟨rfl, by decide, rfl, by decide, rfl, by decide, rfl⟩
    · exact ⟨rfl, by decide, rfl⟩
    · simp [threaded, threads, Segment, FreeList.empty]
  · rcases order with _ | _ | order
    · rfl
    · rfl
    · simp [threaded, threads, FreeList.empty]
  · intro i j different index here there
    rcases mem_threads here with ⟨_, _⟩ | ⟨_, _⟩ <;> rcases mem_threads there with ⟨_, _⟩ | ⟨_, _⟩ <;> omega
  · rcases order with _ | _ | order
    · contradiction
    · contradiction
    · rfl

/-- A page moves from one list to the next, and the first list is emptied. -/
def moves : List Change :=
  [.unlink 0 0, .push 0 1, .pop 0, .unlink 1 0, .pop 0, .pop 0]

theorem moves_allowed : Change.AllAllowed threaded.pages.size threads moves := by
  have absent : ∀ other, 0 ∉ Function.update threads 0 ((threads 0).erase 0) other := by
    intro other
    by_cases same : other = 0
    · subst other
      rw [Function.update_self]
      decide
    · rw [Function.update_of_ne same]
      intro member
      have := mem_threads member
      omega
  have lowest : 0 < Order.count := by decide
  exact ⟨lowest, ⟨by decide, by decide, absent⟩, lowest, lowest, lowest, lowest, trivial⟩

theorem lists_sequential_threaded :
    threaded.Listed threads ∧ threaded.pages.size < PageRecord.noLink ∧ threaded.Sequential threads ∧
      ∃ after, Change.run threaded moves =
        .ok ([.unlinked true, .pushed, .popped (some 2), .unlinked false, .popped (some 4), .popped none],
          after) := by
  have few : threaded.pages.size < PageRecord.noLink := by decide
  obtain ⟨sequential, runs⟩ := lists_sequential threaded_listed few
  obtain ⟨after, ran, _⟩ := runs moves moves_allowed
  exact ⟨threaded_listed, few, sequential, after, ran⟩

end ZonedMemory.Buddy
