import Mathlib.Data.Set.Card
import Mathlib.Data.Set.Finite.Lattice
import Mathlib.Order.Interval.Finset.Nat
import ZonedMemory.Proofs.Range

namespace ZonedMemory

/-!
How many addresses and how many page frames ranges have together, when no two of them share any.
-/

section Entries

variable {α β : Type} {entries : List α} {P : α → β → Prop}

theorem finite_exists_mem (finite : ∀ a ∈ entries, {x | P a x}.Finite) :
    {x | ∃ a ∈ entries, P a x}.Finite := by
  have union : {x | ∃ a ∈ entries, P a x} = ⋃ a ∈ {a | a ∈ entries}, {x | P a x} := by
    ext x
    simp
  rw [union]
  exact Set.Finite.biUnion entries.finite_toSet finite

/-- Counted entry by entry, whatever belongs to several of them is counted more than once. -/
theorem ncard_exists_mem_iff (finite : ∀ a ∈ entries, {x | P a x}.Finite) :
    {x | ∃ a ∈ entries, P a x}.ncard ≤ (entries.map fun a => {x | P a x}.ncard).sum ∧
      ((entries.map fun a => {x | P a x}.ncard).sum = {x | ∃ a ∈ entries, P a x}.ncard ↔
        entries.Pairwise fun a b => ∀ x, P a x → ¬ P b x) := by
  induction entries with
  | nil => simp
  | cons first rest ih =>
      obtain ⟨firstFinite, restFinite⟩ := List.forall_mem_cons.mp finite
      obtain ⟨few, later⟩ := ih restFinite
      have union : {x | ∃ a ∈ first :: rest, P a x} = {x | P first x} ∪ {x | ∃ a ∈ rest, P a x} := by
        ext x
        simp
      have twice := Set.ncard_union_add_ncard_inter {x | P first x} {x | ∃ a ∈ rest, P a x} firstFinite
        (finite_exists_mem restFinite)
      have apart : ({x | P first x} ∩ {x | ∃ a ∈ rest, P a x}).ncard = 0 ↔
          ∀ a ∈ rest, ∀ x, P first x → ¬ P a x := by
        rw [Set.ncard_eq_zero (firstFinite.inter_of_left _), Set.eq_empty_iff_forall_notMem]
        constructor
        · intro none a member x here there
          exact none x ⟨here, a, member, there⟩
        · rintro alone x ⟨here, a, member, there⟩
          exact alone a member x here there
      rw [List.pairwise_cons, ← apart, ← later, union, List.map_cons, List.sum_cons]
      omega

/-- What belongs to entries of a list, and nothing to two of them, can be counted entry by entry. -/
theorem ncard_exists_mem (finite : ∀ a ∈ entries, {x | P a x}.Finite)
    (apart : entries.Pairwise fun a b => ∀ x, P a x → ¬ P b x) :
    {x | ∃ a ∈ entries, P a x}.Finite ∧
      {x | ∃ a ∈ entries, P a x}.ncard = (entries.map fun a => {x | P a x}.ncard).sum :=
  ⟨finite_exists_mem finite, ((ncard_exists_mem_iff finite).2.mpr apart).symm⟩

end Entries

namespace Range

variable {r other : Range} {ranges : List Range} {frame : Nat}

theorem setOf_holds (r : Range) : {addr | r.Holds addr} = Finset.Ico r.base (r.base + r.size) := by
  ext addr
  simp [Holds]

theorem ncard_holds (r : Range) : {addr | r.Holds addr}.ncard = r.size := by
  rw [setOf_holds, Set.ncard_coe_finset, Nat.card_Ico, Nat.add_sub_cancel_left]

theorem Paged.setOf_hasFrame (paged : r.Paged) :
    {frame | r.HasFrame frame} =
      Finset.Ico (r.base / pageSize) (r.base / pageSize + r.pageCount) := by
  obtain ⟨base, size⟩ := r
  obtain ⟨⟨first, rfl⟩, ⟨pages, rfl⟩⟩ := paged
  ext frame
  rw [Nat.mul_comm pageSize first, Nat.mul_comm pageSize pages]
  simp only [HasFrame, pageCount, Nat.mul_div_cancel _ pageSize_pos, ← Nat.add_mul,
    Nat.mul_le_mul_right_iff pageSize_pos, Set.mem_ofPred_eq, Finset.coe_Ico, Set.mem_Ico,
    Nat.succ_le_iff]

theorem Paged.ncard_hasFrame (paged : r.Paged) : {frame | r.HasFrame frame}.ncard = r.pageCount := by
  rw [paged.setOf_hasFrame, Set.ncard_coe_finset, Nat.card_Ico, Nat.add_sub_cancel_left]

/-- Ranges that follow one another have as many addresses as their sizes say. -/
theorem ncard_total (sorted : ranges.Pairwise fun r other => r.base + r.size ≤ other.base) :
    {addr | ∃ r ∈ ranges, r.Holds addr}.ncard = (ranges.map Range.size).sum := by
  have apart : ranges.Pairwise fun r other => ∀ addr, r.Holds addr → ¬ other.Holds addr := by
    refine sorted.imp fun before addr holds otherHolds => ?_
    simp only [Holds] at holds otherHolds
    omega
  have finite : ∀ r ∈ ranges, {addr | r.Holds addr}.Finite := by
    intro r _
    rw [setOf_holds]
    exact Finset.finite_toSet _
  rw [(ncard_exists_mem finite apart).2]
  simp only [ncard_holds]

theorem frames_apart (sorted : ranges.Pairwise fun r other => r.base + r.size ≤ other.base) :
    ranges.Pairwise fun r other => ∀ frame, r.HasFrame frame → ¬ other.HasFrame frame := by
  refine sorted.imp fun before frame has otherHas => ?_
  have positive := pageSize_pos
  simp only [HasFrame, Nat.succ_mul] at has otherHas
  omega

/-- Of ranges that follow one another only one has a given frame. -/
theorem eq_of_hasFrame (sorted : ranges.Pairwise fun r other => r.base + r.size ≤ other.base)
    (member : r ∈ ranges) (otherMember : other ∈ ranges) (has : r.HasFrame frame)
    (otherHas : other.HasFrame frame) : r = other := by
  have symmetric : Std.Symm fun r other : Range => ∀ frame, r.HasFrame frame → ¬ other.HasFrame frame :=
    ⟨fun _ _ apart frame has otherHas => apart frame otherHas has⟩
  by_contra different
  exact (frames_apart sorted).forall member otherMember different frame has otherHas

theorem Paged.exists_frame (paged : r.Paged) (some : 0 < r.size) : ∃ frame, r.HasFrame frame :=
  ⟨_, paged.hasFrame ⟨Nat.le_refl _, Nat.lt_add_of_pos_right some⟩⟩

/-- Whole pages that follow one another have as many frames as they have pages. -/
theorem ncard_frames (paged : ∀ r ∈ ranges, r.Paged)
    (sorted : ranges.Pairwise fun r other => r.base + r.size ≤ other.base) :
    {frame | ∃ r ∈ ranges, r.HasFrame frame}.ncard = (ranges.map Range.pageCount).sum := by
  have finite : ∀ r ∈ ranges, {frame | r.HasFrame frame}.Finite := by
    intro r member
    rw [(paged r member).setOf_hasFrame]
    exact Finset.finite_toSet _
  rw [(ncard_exists_mem finite (frames_apart sorted)).2]
  exact congrArg List.sum (List.map_congr_left fun r member => (paged r member).ncard_hasFrame)

end Range

end ZonedMemory
