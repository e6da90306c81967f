import Mathlib.Data.List.Perm.Subperm
import Mathlib.Logic.Function.Basic
import ZonedMemory.Buddy.Chain
import ZonedMemory.Proofs.Buddy.Records

namespace ZonedMemory.Buddy

/-!
The free lists as lists of page indices. `Segment` reads a stretch of links as a list; `Listed` says
of every order which list its chain spells out, and that no page is on two of them. Taking a page
off, putting one on and cutting one out are the list operations of the same effect.
-/

/-- Following the links from `head` visits the listed pages in turn and then comes to `tail`. -/
def Segment (b : Buddy) : (head : Option Nat) → List Nat → (tail : Option Nat) → Prop
  | head, [], tail => head = tail
  | head, index :: rest, tail =>
      head = some index ∧ index < b.pages.size ∧ Segment b (b.nextOf index) rest tail

/-- The free lists of a buddy, written out by order. -/
structure Listed (b : Buddy) (chains : Nat → List Nat) : Prop where
  linked : ∀ order (bound : order < Order.count), b.Segment b.lists[order].head (chains order) none
  counted : ∀ order (bound : order < Order.count), b.lists[order].count = (chains order).length
  apart : ∀ i j, i ≠ j → ∀ index ∈ chains i, index ∉ chains j
  beyond : ∀ order, Order.count ≤ order → chains order = []

variable {b after : Buddy} {chain front back : List Nat} {head tail next : Option Nat}
  {index order page : Nat} {chains : Nat → List Nat}

theorem segment_append :
    b.Segment head (front ++ back) tail ↔
      ∃ middle, b.Segment head front middle ∧ b.Segment middle back tail := by
  induction front generalizing head with
  | nil => simp [Segment]
  | cons index rest ih => simp [Segment, ih, and_assoc]

theorem Segment.lt_size (linked : b.Segment head chain tail) :
    ∀ index ∈ chain, index < b.pages.size := by
  induction chain generalizing head with
  | nil => simp
  | cons first rest ih =>
      obtain ⟨_, bound, linked⟩ := linked
      simpa [bound] using ih linked

theorem Segment.head_lt (linked : b.Segment head chain none) :
    ∀ target ∈ head, target < b.pages.size := by
  intro target start
  cases chain with
  | nil => cases Eq.trans (Eq.symm linked) start
  | cons first rest =>
      obtain rfl : first = target := Option.some.inj (linked.1.symm.trans start)
      exact linked.2.1

theorem Segment.congr (linked : b.Segment head chain tail)
    (size : after.pages.size = b.pages.size) (same : ∀ index ∈ chain, after.nextOf index = b.nextOf index) :
    after.Segment head chain tail := by
  induction chain generalizing head with
  | nil => exact linked
  | cons first rest ih =>
      obtain ⟨start, bound, linked⟩ := linked
      refine ⟨start, by rwa [size], ?_⟩
      rw [same first (by simp)]
      exact ih linked fun index member => same index (by simp [member])

theorem Segment.unique {other : List Nat} (left : b.Segment head chain none)
    (right : b.Segment head other none) : chain = other := by
  induction chain generalizing head other with
  | nil =>
      cases other with
      | nil => rfl
      | cons index rest => simp [Segment] at left right; simp [left] at right
  | cons first rest ih =>
      cases other with
      | nil => simp [Segment] at left right; simp [right] at left
      | cons index others =>
          obtain ⟨start, _, left⟩ := left
          obtain ⟨sameStart, _, right⟩ := right
          obtain rfl : first = index := Option.some.inj (start.symm.trans sameStart)
          rw [ih left right]

/-- A chain that ends visits no page twice: from a page visited twice it would go on in two ways. -/
theorem Segment.nodup (linked : b.Segment head chain none) : chain.Nodup := by
  induction chain generalizing head with
  | nil => simp
  | cons first rest ih =>
      obtain ⟨start, bound, linked⟩ := linked
      refine List.nodup_cons.mpr ⟨fun again => ?_, ih linked⟩
      obtain ⟨front, back, rfl⟩ := List.append_of_mem again
      obtain ⟨middle, _, suffix⟩ := segment_append.mp linked
      have same := Segment.unique linked suffix.2.2
      have lengths := congrArg List.length same
      simp at lengths
      omega

theorem Segment.length_le (linked : b.Segment head chain none) : chain.length ≤ b.pages.size := by
  have subset : chain ⊆ List.range b.pages.size := fun index member =>
    List.mem_range.mpr (linked.lt_size index member)
  simpa using (List.subperm_of_subset linked.nodup subset).length_le

theorem Segment.relinked (linked : b.Segment head chain tail) (absent : index ∉ chain)
    (bound : index < b.pages.size) (fits : ∀ target ∈ next, target < PageRecord.noLink) :
    (b.relinked index next).Segment head chain tail := by
  refine linked.congr relinked_extent.size fun page member => ?_
  have different : page ≠ index := fun same => absent (same ▸ member)
  rw [nextOf_relinked bound fits, if_neg different]

theorem Segment.retargeted (linked : b.Segment head (front ++ [index]) tail) (absent : index ∉ front)
    (fits : ∀ target ∈ next, target < PageRecord.noLink) :
    (b.relinked index next).Segment head (front ++ [index]) next := by
  have bound := linked.lt_size index (by simp)
  obtain ⟨middle, start, last⟩ := segment_append.mp linked
  refine segment_append.mpr ⟨middle, start.relinked absent bound fits, last.1, ?_, ?_⟩
  · rw [relinked_extent.size]
    exact bound
  · rw [nextOf_relinked bound fits, if_pos rfl]
    rfl

namespace Listed

theorem nodup (listed : b.Listed chains) (order : Nat) : (chains order).Nodup := by
  by_cases bound : order < Order.count
  · exact (listed.linked order bound).nodup
  · rw [listed.beyond order (Nat.le_of_not_lt bound)]
    exact List.nodup_nil

theorem lt_size (listed : b.Listed chains) (member : index ∈ chains order) :
    index < b.pages.size := by
  by_cases bound : order < Order.count
  · exact (listed.linked order bound).lt_size index member
  · simp [listed.beyond order (Nat.le_of_not_lt bound)] at member

theorem order_lt (listed : b.Listed chains) (member : index ∈ chains order) :
    order < Order.count := by
  by_contra beyond
  simp [listed.beyond order (Nat.le_of_not_lt beyond)] at member

theorem retagged (listed : b.Listed chains) (index : Nat) (state : BlockState) :
    (b.retagged index state).Listed chains where
  linked order bound := (listed.linked order bound).congr (retagged_extent ..).size
    fun _ _ => congrFun nextOf_retagged _
  counted := listed.counted
  apart := listed.apart
  beyond := listed.beyond

theorem withFreePages (listed : b.Listed chains) (count : Nat) :
    Listed { b with freePages := count } chains where
  linked order bound := (listed.linked order bound).congr rfl fun _ _ => rfl
  counted := listed.counted
  apart := listed.apart
  beyond := listed.beyond

/-- Giving one order a new list, with links changed on no other list: the other orders keep
theirs. -/
theorem replace (listed : b.Listed chains) (bound : order < Order.count) {list : FreeList}
    (size : after.pages.size = b.pages.size) (lists : after.lists = b.lists)
    (linked : after.Segment list.head chain none) (counted : list.count = chain.length)
    (same : ∀ other, other ≠ order → ∀ index ∈ chains other, after.nextOf index = b.nextOf index)
    (apart : ∀ other, other ≠ order → ∀ index ∈ chains other, index ∉ chain) :
    (after.relisted order list bound).Listed (Function.update chains order chain) where
  linked other otherBound := by
    rw [lists_relisted otherBound]
    by_cases equal : other = order
    · subst other
      rw [if_pos rfl, Function.update_self]
      exact linked.congr rfl fun _ _ => rfl
    · have kept := (listed.linked other otherBound).congr size (same other equal)
      rw [if_neg equal, Function.update_of_ne equal, lists]
      exact kept.congr rfl fun _ _ => rfl
  counted other otherBound := by
    rw [lists_relisted otherBound]
    by_cases equal : other = order
    · subst other
      rw [if_pos rfl, Function.update_self, counted]
    · rw [if_neg equal, Function.update_of_ne equal, lists, listed.counted other otherBound]
  apart i j different index member := by
    by_cases left : i = order
    · subst i
      rw [Function.update_self] at member
      rw [Function.update_of_ne (Ne.symm different)]
      exact fun again => apart j (Ne.symm different) index again member
    · rw [Function.update_of_ne left] at member
      by_cases right : j = order
      · subst j
        rw [Function.update_self]
        exact apart i left index member
      · rw [Function.update_of_ne right]
        exact listed.apart i j different index member
  beyond other large := by
    rw [Function.update_of_ne (by omega)]
    exact listed.beyond other large

end Listed

/-- Pushing links the page to the head of the list, whether or not it stands on one already. -/
theorem push_eq (listed : b.Listed chains) (few : b.pages.size < PageRecord.noLink)
    (bound : index < b.pages.size) (small : order < Order.count) :
    b.push index order = .ok ((b.relinked index b.lists[order].head).relisted order
      ⟨some index, b.lists[order].count + 1⟩ small) := by
  have room : b.lists[order].count + 1 < 2 ^ 64 := by
    rw [listed.counted order small]
    have := (listed.linked order small).length_le
    have : PageRecord.noLink < 2 ^ 64 - 1 := by decide
    omega
  simp only [push, freeList_eq small, ok_bind, link_eq _ bound, Word.add_eq room, setFreeList_eq small]

theorem push_listed (listed : b.Listed chains) (few : b.pages.size < PageRecord.noLink)
    (bound : index < b.pages.size) (small : order < Order.count)
    (absent : ∀ other, index ∉ chains other) :
    ∃ after, b.push index order = .ok after ∧ SameExtent b after ∧ after.stateAt? = b.stateAt? ∧
      after.Listed (Function.update chains order (index :: chains order)) := by
  have linked := listed.linked order small
  have fits : ∀ target ∈ b.lists[order].head, target < PageRecord.noLink :=
    fun target start => (linked.head_lt target start).trans few
  have others : ∀ page, page ≠ index →
      (b.relinked index b.lists[order].head).nextOf page = b.nextOf page := by
    intro page different
    rw [nextOf_relinked bound fits, if_neg different]
  refine ⟨_, push_eq listed few bound small, relinked_extent.trans relisted_extent, ?_, ?_⟩
  · rw [stateAt?_relisted, stateAt?_relinked]
  · refine listed.replace small relinked_extent.size rfl ?_ ?_ ?_ ?_
    · refine ⟨rfl, by rwa [relinked_extent.size], ?_⟩
      rw [nextOf_relinked bound fits, if_pos rfl]
      exact linked.relinked (absent order) bound fits
    · rw [listed.counted order small, List.length_cons]
    · exact fun other _ page member => others page fun same => absent other (same ▸ member)
    · intro other different page member
      simp only [List.mem_cons, not_or]
      exact ⟨fun same => absent other (same ▸ member), listed.apart other order different page member⟩

theorem pop_listed {rest : List Nat} (listed : b.Listed chains)
    (small : order < Order.count) (spelled : chains order = index :: rest) :
    ∃ after, b.pop order = .ok (some index, after) ∧ SameExtent b after ∧
      after.stateAt? = b.stateAt? ∧ after.Listed (Function.update chains order rest) := by
  have linked := listed.linked order small
  rw [spelled] at linked
  obtain ⟨start, bound, linked⟩ := linked
  have distinct := listed.nodup order
  rw [spelled, List.nodup_cons] at distinct
  have counted : b.lists[order].count = rest.length + 1 := by
    rw [listed.counted order small, spelled, List.length_cons]
  have noFits : ∀ target ∈ (none : Option Nat), target < PageRecord.noLink := by simp
  refine ⟨(b.relinked index none).relisted order ⟨b.nextOf index, b.lists[order].count - 1⟩ small,
    ?_, ?_, ?_, ?_⟩
  · have less := Word.sub_eq (show 1 ≤ b.lists[order].count by omega)
    have unlinked := link_eq (b := b.relisted order ⟨b.nextOf index, b.lists[order].count - 1⟩ small)
      none bound
    simp only [pop, freeList_eq small, ok_bind, start, record_eq bound, less, setFreeList_eq small,
      record_next bound, pure_eq_ok, unlinked]
    rfl
  · exact relinked_extent.trans relisted_extent
  · rw [stateAt?_relisted, stateAt?_relinked]
  · refine listed.replace small relinked_extent.size rfl ?_ ?_ ?_ ?_
    · exact linked.relinked distinct.1 bound noFits
    · rw [counted, Nat.add_sub_cancel]
    · intro other different page member
      have absent : page ≠ index := by
        rintro rfl
        exact listed.apart other order different page member (by simp [spelled])
      rw [nextOf_relinked bound noFits, if_neg absent]
    · intro other different page member again
      exact listed.apart other order different page member (by simp [spelled, again])

theorem findInChain_found {steps : Nat} {previous : Option Nat}
    (linked : b.Segment head (front ++ index :: back) tail) (first : index ∉ front)
    (enough : front.length < steps) :
    b.findInChain index steps previous head =
      .ok (some ⟨front.getLast?.or previous, b.nextOf index⟩) := by
  induction front generalizing head steps previous with
  | nil =>
      obtain ⟨rfl, bound, _⟩ := linked
      cases steps with
      | zero => simp at enough
      | succ steps =>
          simp [findInChain, record_eq bound, record_next bound]
  | cons page rest ih =>
      obtain ⟨rfl, bound, linked⟩ := linked
      have different : page ≠ index := fun same => first (by simp [same])
      cases steps with
      | zero => simp at enough
      | succ steps =>
          have found : b.findInChain index steps (some page) (b.nextOf page) =
              .ok (some ⟨rest.getLast?.or (some page), b.nextOf index⟩) :=
            ih linked (fun member => first (by simp [member])) (by simpa using enough)
          simp only [findInChain, record_eq bound, ok_bind, if_neg different, record_next bound, found,
            List.getLast?_cons, Option.some_or]
          cases rest.getLast? <;> rfl

theorem findInChain_absent {steps : Nat} {previous : Option Nat}
    (linked : b.Segment head chain none) (absent : index ∉ chain) (enough : chain.length ≤ steps) :
    b.findInChain index steps previous head = .ok none := by
  induction chain generalizing head steps previous with
  | nil =>
      obtain rfl : head = none := linked
      cases steps <;> rfl
  | cons page rest ih =>
      obtain ⟨rfl, bound, linked⟩ := linked
      have different : page ≠ index := fun same => absent (by simp [same])
      cases steps with
      | zero => simp at enough
      | succ steps =>
          simp only [findInChain, record_eq bound, ok_bind, if_neg different, record_next bound]
          exact ih linked (fun member => absent (by simp [member])) (by simpa using enough)

theorem unlink_absent (listed : b.Listed chains) (small : order < Order.count)
    (absent : index ∉ chains order) : b.unlink index order = .ok (false, b) := by
  have linked := listed.linked order small
  simp only [unlink, freeList_eq small, ok_bind,
    findInChain_absent linked absent linked.length_le, pure_eq_ok]

/-- A page is cut out of a segment by linking the page before it to the page after it. -/
theorem Segment.cut {last : Nat} (linked : b.Segment head (front ++ [last] ++ index :: back) none)
    (few : b.pages.size < PageRecord.noLink) :
    (b.relinked last (b.nextOf index)).Segment head (front ++ [last] ++ back) none := by
  have distinct := linked.nodup
  rw [List.append_assoc, List.nodup_append] at distinct
  have notFront : last ∉ front := fun member => distinct.2.2 last member last (by simp) rfl
  have notBack : last ∉ back := by
    have := List.nodup_cons.mp distinct.2.1
    simp_all
  have bound := linked.lt_size last (by simp)
  obtain ⟨middle, start, _, _, rest⟩ := segment_append.mp linked
  have fits : ∀ target ∈ b.nextOf index, target < PageRecord.noLink :=
    fun target next => (rest.head_lt target next).trans few
  exact segment_append.mpr ⟨_, start.retargeted notFront fits, rest.relinked notBack bound fits⟩

/-- Where the gap that a page leaves is closed, the page is unlinked and its list counts one page less. -/
theorem Listed.without {closed : Buddy} {start : Option Nat} (listed : b.Listed chains)
    (small : order < Order.count) (member : index ∈ chains order) (extent : SameExtent b closed)
    (lists : closed.lists = b.lists) (linked : closed.Segment start ((chains order).erase index) none)
    (same : ∀ page, page ∉ chains order → closed.nextOf page = b.nextOf page) :
    ((closed.relinked index none).relisted order ⟨start, b.lists[order].count - 1⟩ small).Listed
      (Function.update chains order ((chains order).erase index)) := by
  have chain := listed.linked order small
  have bound : index < closed.pages.size := extent.size ▸ chain.lt_size index member
  have notLeft : index ∉ (chains order).erase index := chain.nodup.not_mem_erase
  have noFits : ∀ target ∈ (none : Option Nat), target < PageRecord.noLink := by simp
  have others : ∀ other, other ≠ order → ∀ page ∈ chains other, page ∉ chains order :=
    fun other different page => listed.apart other order different page
  refine listed.replace small (relinked_extent.size.trans extent.size) lists ?_ ?_ ?_ ?_
  · exact linked.relinked notLeft bound noFits
  · rw [listed.counted order small, List.length_erase_of_mem member]
  · intro other different page listedThere
    have absent := others other different page listedThere
    have notIndex : page ≠ index := fun equal => absent (equal ▸ member)
    rw [nextOf_relinked bound noFits, if_neg notIndex, same page absent]
  · intro other different page listedThere inside
    exact others other different page listedThere (List.mem_of_mem_erase inside)

/-- Unlinking a page of a list cuts it out and keeps the order of the others. -/
theorem unlink_listed (listed : b.Listed chains) (few : b.pages.size < PageRecord.noLink)
    (member : index ∈ chains order) :
    ∃ after, b.unlink index order = .ok (true, after) ∧ SameExtent b after ∧
      after.stateAt? = b.stateAt? ∧
      after.Listed (Function.update chains order ((chains order).erase index)) := by
  have small := listed.order_lt member
  have linked := listed.linked order small
  have distinct := linked.nodup
  have bound := linked.lt_size index member
  have shorter := linked.length_le
  have counted := listed.counted order small
  obtain ⟨front, back, spelled⟩ := List.append_of_mem member
  have notFront : index ∉ front := by
    rw [spelled] at distinct
    exact fun again => (List.nodup_append.mp distinct).2.2 index again index (by simp) rfl
  have left : (chains order).erase index = front ++ back := by
    rw [spelled, List.erase_append_right _ notFront, List.erase_cons_head]
  rw [spelled] at linked shorter counted
  simp only [List.length_append, List.length_cons] at shorter counted
  have found : b.findInChain index b.pages.size none b.lists[order].head =
      .ok (some ⟨front.getLast?.or none, b.nextOf index⟩) :=
    findInChain_found linked notFront (by omega)
  have less := Word.sub_eq (show 1 ≤ b.lists[order].count by omega)
  -- the gap is closed at the head of the list or at the page before
  rcases List.eq_nil_or_concat front with rfl | ⟨init, last, rfl⟩
  · have behind : b.Segment (b.nextOf index) ((chains order).erase index) none := by
      rw [left]
      exact linked.2.2
    refine ⟨_, ?_, relinked_extent.trans relisted_extent, ?_,
      listed.without small member (.refl b) rfl behind fun _ _ => rfl⟩
    · have unlinked := link_eq
        (b := b.relisted order ⟨b.nextOf index, b.lists[order].count - 1⟩ small) none bound
      simp only [unlink, freeList_eq small, ok_bind, found, List.getLast?_nil, Option.none_or, less,
        setFreeList_eq small, pure_eq_ok, unlinked, Option.isSome_none, Bool.false_eq_true, if_false]
      rfl
    · rw [stateAt?_relisted, stateAt?_relinked]
  · rw [List.concat_eq_append] at *
    have lastMember : last ∈ chains order := by simp [spelled]
    have lastBound := linked.lt_size last (by simp)
    have fits : ∀ target ∈ b.nextOf index, target < PageRecord.noLink := by
      obtain ⟨_, _, _, _, rest⟩ := segment_append.mp linked
      exact fun target next => (rest.head_lt target next).trans few
    have same : ∀ page, page ∉ chains order →
        (b.relinked last (b.nextOf index)).nextOf page = b.nextOf page := by
      intro page absent
      have different : page ≠ last := fun same => absent (same ▸ lastMember)
      rw [nextOf_relinked lastBound fits, if_neg different]
    refine ⟨_, ?_, relinked_extent.trans (relinked_extent.trans relisted_extent), ?_,
      listed.without small member relinked_extent rfl (left ▸ linked.cut few) same⟩
    · have unlinked := link_eq none
        (b := (b.relinked last (b.nextOf index)).relisted order
          ⟨b.lists[order].head, b.lists[order].count - 1⟩ small)
        (show index < _ by rw [relisted_extent.size, relinked_extent.size]; exact bound)
      simp only [unlink, freeList_eq small, ok_bind, found, List.getLast?_concat, Option.some_or,
        less, setFreeList_eq small, pure_eq_ok, link_eq _ lastBound, unlinked, Option.isSome_some,
        if_true]
      rfl
    · rw [stateAt?_relisted, stateAt?_relinked, stateAt?_relinked]

end ZonedMemory.Buddy
