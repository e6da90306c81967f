import ZonedMemory.Buddy.Basic
import ZonedMemory.Proofs.Order

namespace ZonedMemory

/-!
The records of the pages seen as two functions: the state of every frame and the link of every page.
Writing a state changes the one in one place, writing a link the other.
-/

namespace PageRecord

@[simp] theorem state_withState (record : PageRecord) (state : BlockState) :
    (record.withState state).state = state := by
  cases state <;> rfl

@[simp] theorem next?_withState (record : PageRecord) (state : BlockState) :
    (record.withState state).next? = record.next? := rfl

@[simp] theorem state_withNext (record : PageRecord) (next : Option Nat) :
    (record.withNext next).state = record.state := by
  cases next <;> rfl

theorem next?_withNext (record : PageRecord) {next : Option Nat}
    (fits : ∀ index ∈ next, index < noLink) : (record.withNext next).next? = next := by
  cases next with
  | none => rfl
  | some index =>
      have bound : index < noLink := fits index rfl
      have word : index < 2 ^ 32 := bound.trans (by decide)
      simp only [withNext, next?, Nat.one_shiftLeft, Nat.mod_eq_of_lt word, if_neg bound.ne]

@[simp] theorem next?_tail : tail.next? = none := rfl

end PageRecord

namespace Buddy

/-- The state of the page with a frame number, if the range has the frame. -/
def stateAt? (b : Buddy) (frame : Nat) : Option BlockState :=
  if b.firstFrame ≤ frame then b.pages[frame - b.firstFrame]?.map PageRecord.state else none

def nextOf (b : Buddy) (index : Nat) : Option Nat := b.pages[index]?.bind PageRecord.next?

def retagged (b : Buddy) (index : Nat) (state : BlockState) : Buddy :=
  { b with pages := b.pages.modify index fun record => record.withState state }

def relinked (b : Buddy) (index : Nat) (next : Option Nat) : Buddy :=
  { b with pages := b.pages.modify index fun record => record.withNext next }

def relisted (b : Buddy) (order : Nat) (list : FreeList) (bound : order < Order.count) : Buddy :=
  { b with lists := b.lists.set order list }

structure SameExtent (before after : Buddy) : Prop where
  range : after.range = before.range
  firstFrame : after.firstFrame = before.firstFrame
  size : after.pages.size = before.pages.size
  freePages : after.freePages = before.freePages

theorem SameExtent.refl (b : Buddy) : SameExtent b b := ⟨rfl, rfl, rfl, rfl⟩

theorem SameExtent.trans {a b c : Buddy} (first : SameExtent a b) (second : SameExtent b c) :
    SameExtent a c :=
  ⟨second.range.trans first.range, second.firstFrame.trans first.firstFrame,
    second.size.trans first.size, second.freePages.trans first.freePages⟩

variable {b : Buddy} {index frame order : Nat} {state : BlockState} {next : Option Nat}

theorem retagged_extent (b : Buddy) (index : Nat) (state : BlockState) :
    SameExtent b (b.retagged index state) :=
  ⟨rfl, rfl, Array.size_modify .., rfl⟩

theorem relinked_extent : SameExtent b (b.relinked index next) :=
  ⟨rfl, rfl, Array.size_modify .., rfl⟩

theorem tag_eq (bound : index < b.pages.size) : b.tag index state = .ok (b.retagged index state) :=
  if_pos bound

theorem link_eq (next : Option Nat) (bound : index < b.pages.size) :
    b.link index next = .ok (b.relinked index next) :=
  if_pos bound

theorem record_eq (bound : index < b.pages.size) : b.record index = .ok b.pages[index] := by
  simp [record, bound]

theorem record_next (bound : index < b.pages.size) : b.pages[index].next? = b.nextOf index := by
  simp [nextOf, bound]

theorem stateAt?_add (b : Buddy) (index : Nat) :
    b.stateAt? (b.firstFrame + index) = b.pages[index]?.map PageRecord.state := by
  simp [stateAt?]

theorem record_state (bound : index < b.pages.size) :
    b.stateAt? (b.firstFrame + index) = some b.pages[index].state := by
  simp [stateAt?_add, bound]

theorem stateAt?_inside (known : b.stateAt? frame = some state) :
    b.firstFrame ≤ frame ∧ frame < b.firstFrame + b.pages.size := by
  unfold stateAt? at known
  split at known
  · rename_i lower
    obtain ⟨record, found, _⟩ := Option.map_eq_some_iff.mp known
    have := (Array.getElem?_eq_some_iff.mp found).1
    omega
  · contradiction

theorem stateAt?_eq_none (outside : ¬ (b.firstFrame ≤ frame ∧ frame < b.firstFrame + b.pages.size)) :
    b.stateAt? frame = none := by
  by_contra present
  obtain ⟨state, known⟩ := Option.ne_none_iff_exists'.mp present
  exact outside (stateAt?_inside known)

theorem exists_stateAt? (inside : b.firstFrame ≤ frame ∧ frame < b.firstFrame + b.pages.size) :
    ∃ state, b.stateAt? frame = some state := by
  have bound : frame - b.firstFrame < b.pages.size := by omega
  have state := record_state bound
  rw [Nat.add_sub_of_le inside.1] at state
  exact ⟨_, state⟩

theorem stateAt?_retagged (bound : index < b.pages.size) :
    (b.retagged index state).stateAt? frame =
      if frame = b.firstFrame + index then some state else b.stateAt? frame := by
  unfold stateAt? retagged
  by_cases lower : b.firstFrame ≤ frame
  · by_cases same : frame = b.firstFrame + index
    · simp [same, bound, Array.getElem_modify]
    · have other : index ≠ frame - b.firstFrame := by omega
      simp [lower, same, Array.getElem?_modify, other]
  · have different : frame ≠ b.firstFrame + index := by omega
    simp [lower, different]

@[simp] theorem stateAt?_relinked : (b.relinked index next).stateAt? = b.stateAt? := by
  funext frame
  unfold stateAt? relinked
  by_cases same : index = frame - b.firstFrame
  · simp [Array.getElem?_modify, same, Function.comp_def]
  · simp [Array.getElem?_modify, same]

@[simp] theorem nextOf_retagged : (b.retagged index state).nextOf = b.nextOf := by
  funext page
  unfold nextOf retagged
  by_cases same : index = page
  · cases found : b.pages[page]? <;> simp [Array.getElem?_modify, same, found]
  · simp [Array.getElem?_modify, same]

theorem nextOf_relinked {page : Nat} (bound : index < b.pages.size)
    (fits : ∀ target ∈ next, target < PageRecord.noLink) :
    (b.relinked index next).nextOf page = if page = index then next else b.nextOf page := by
  unfold nextOf relinked
  by_cases same : page = index
  · simp [same, bound, Array.getElem_modify, PageRecord.next?_withNext _ fits]
  · have other : index ≠ page := Ne.symm same
    simp [Array.getElem?_modify, same, other]

theorem nextOf_relinked_of_ne {page : Nat} (different : page ≠ index) :
    (b.relinked index next).nextOf page = b.nextOf page := by
  simp [nextOf, relinked, Array.getElem?_modify, Ne.symm different]

theorem freeList_eq (bound : order < Order.count) : b.freeList order = .ok b.lists[order] :=
  dif_pos bound

theorem setFreeList_eq {list : FreeList} (bound : order < Order.count) :
    b.setFreeList order list = .ok (b.relisted order list bound) :=
  dif_pos bound

theorem relisted_extent {list : FreeList} {bound : order < Order.count} :
    SameExtent b (b.relisted order list bound) := ⟨rfl, rfl, rfl, rfl⟩

theorem lists_relisted {list : FreeList} {bound : order < Order.count} {other : Nat}
    (otherBound : other < Order.count) :
    (b.relisted order list bound).lists[other] = if other = order then list else b.lists[other] := by
  by_cases same : other = order
  · subst other
    simp [relisted]
  · simp [relisted, same, Ne.symm same]

@[simp] theorem stateAt?_relisted {list : FreeList} {bound : order < Order.count} :
    (b.relisted order list bound).stateAt? = b.stateAt? := rfl

end Buddy

end ZonedMemory
