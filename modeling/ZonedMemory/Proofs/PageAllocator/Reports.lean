import Mathlib.Algebra.BigOperators.Ring.List
import ZonedMemory.Proofs.PageAllocator.Zones

namespace ZonedMemory

/-!
What is reported of pages can be written. The text of an event is worked out only for a reader who
wants it, from numbers that may be too large for it; none that a page allocator reports is.
-/

variable {live : List Block} {addr : Nat}

namespace Buddy

variable {b : Buddy}

theorem list_answers (placed : b.Placed) : b.list.Answers () := by
  obtain ⟨range, text⟩ := Range.text_written placed.word
  apply Traced.Answers.bind
  · apply Traced.Answers.report
    simp only [Event.text, BuddyEvent.text, text, ok_bind]
    exact ⟨_, rfl⟩
  · apply Traced.Answers.forM
    intro order member
    have small : order < Order.count := List.mem_range.mp member
    have length : 2 ^ order ≤ 2 ^ Order.count := Nat.pow_le_pow_right (by decide) small.le
    have fits : pageSize * 2 ^ order < 2 ^ 64 :=
      (Nat.mul_le_mul_left _ length).trans_lt (by decide)
    split
    · apply Traced.Answers.report
      simp only [Event.text, BuddyEvent.text, Word.shiftLeft_eq (small.trans (by decide)) fits, ok_bind]
      exact ⟨_, rfl⟩
    · exact .pure ()

end Buddy

namespace Zone

variable {z : Zone}

namespace Sound

theorem allocate_written (sound : z.Sound live) (order align : Nat) : (z.allocate order align).Written := by
  obtain ⟨_, answers⟩ := sound.settled.allocate_answers order align
  apply answers.toWritten.bind
  intro result _
  obtain ⟨answer, buddy⟩ := result
  cases answer with
  | ok addr => exact .pure _
  | error reason => exact .pure _

theorem free_written (sound : z.Sound live) (addr : Nat) : (z.free addr).Written := by
  obtain ⟨_, answers⟩ := sound.settled.free_answers addr
  apply answers.toWritten.bind
  intro result _
  obtain ⟨answer, buddy⟩ := result
  cases answer with
  | ok pages => exact .pure _
  | error reason => exact .pure _

theorem size_eq (sound : z.Sound live) : z.range.size = z.totalPages * pageSize := by
  rw [sound.range, sound.placed.size, sound.totalPages]

theorem freePages_le (sound : z.Sound live) : z.freePages ≤ z.totalPages := by
  have accounted := sound.settled.accounted
  rw [sound.mirror, sound.totalPages]
  omega

theorem list_answers (sound : z.Sound live) (blocks : Bool) : (z.list blocks).Answers () := by
  have word := sound.word
  rw [sound.size_eq] at word
  have scaled := Nat.mul_le_mul_right pageSize sound.freePages_le
  obtain ⟨range, text⟩ := Range.text_written sound.word
  apply Traced.Answers.bind
  · apply Traced.Answers.report
    simp only [Event.text, ZoneEvent.text, text, ok_bind,
      Word.mul_eq (show z.freePages * pageSize < 2 ^ 64 by omega),
      Word.mul_eq (show z.totalPages * pageSize < 2 ^ 64 by omega)]
    exact ⟨_, rfl⟩
  · apply Traced.Answers.bind (.report ⟨_, rfl⟩)
    cases blocks with
    | true => exact Buddy.list_answers sound.placed
    | false => exact .pure ()

end Sound

end Zone

/-- Zones in address order have together no more pages than the address space. -/
theorem ZoneTable.Serving.pages_word {zones : List Zone} (serving : ZoneTable.Serving zones live) :
    (zones.map Zone.totalPages).sum * pageSize < 2 ^ 64 := by
  have sizes : (zones.map fun z => z.totalPages * pageSize) = (zones.map Zone.range).map Range.size := by
    rw [List.map_map]
    exact List.map_congr_left fun z member => (serving.sound z member).size_eq.symm
  rw [← List.sum_map_mul_right, sizes]
  apply Range.total_word
  · intro r listed
    obtain ⟨z, member, rfl⟩ := List.mem_map.mp listed
    exact (serving.sound z member).word
  · exact List.pairwise_map.mpr serving.sorted

namespace PageAllocator

variable {a : PageAllocator} {z : Zone} {order : Nat}

theorem bytesOf_eq {counts : List Nat} (word : counts.sum * pageSize < 2 ^ 64) :
    PageEvent.bytesOf counts = .ok (counts.sum * pageSize) := by
  have room := pageSize_pos
  have sum : Word.sum counts = .ok counts.sum :=
    Word.sum_eq_ok.mpr ⟨(Nat.le_mul_of_pos_right _ room).trans_lt word, rfl⟩
  simp only [PageEvent.bytesOf, sum, ok_bind, Word.mul_eq word]

namespace Sound

theorem allocateFrom_written (sound : a.Sound live) (member : z ∈ a.zones.zones)
    (small : order < Order.count) (align : Nat) : (a.allocateFrom z order align).Written := by
  apply ((sound.serving.sound z member).allocate_written order align).bind
  intro result _
  obtain ⟨answer, zone⟩ := result
  cases answer with
  | error reason => exact .pure _
  | ok addr =>
      apply Traced.Written.answer
      simp only [Event.text, PageEvent.text, Word.shiftLeft_one (small.trans (by decide)), ok_bind]
      exact ⟨_, rfl⟩

theorem allocateAmong_written {zones : List Zone} (sound : a.Sound live)
    (members : ∀ z ∈ zones, z ∈ a.zones.zones) (small : order < Order.count) (align : Nat) :
    (allocateAmong order align zones a).Written := by
  induction zones with
  | nil => exact .pure _
  | cons z rest ih =>
      obtain ⟨member, others⟩ := List.forall_mem_cons.mp members
      apply (sound.allocateFrom_written member small align).bind
      intro result answered
      obtain ⟨answer, after⟩ := result
      cases answer with
      | ok addr => exact .pure _
      | error reason =>
          have same : after = a := by
            rcases allocateFrom_sound sound member order align with ⟨_, _, again, _⟩ | ⟨_, again⟩
            · cases answered.symm.trans again
            · exact (Prod.mk.inj (Except.ok.inj (answered.symm.trans again))).2
          cases reason with
          | outOfMemory =>
              rw [same]
              exact ih others
          | _ => exact .pure _

theorem allocateAligned_written (sound : a.Sound live) (flags : ZoneFlags) (pages align : Nat) :
    (a.allocateAligned flags pages align).Written := by
  unfold allocateAligned
  split
  · exact .pure _
  split
  · exact .pure _
  apply Traced.Written.compute
  intro order _
  dsimp only
  split
  · exact .pure _
  rename_i small
  apply Traced.Written.compute
  intro bytes _
  obtain ⟨same, chosen⟩ := ZoneTable.choose_mem a.zones bytes flags
  generalize a.zones.choose bytes flags = choice at *
  obtain ⟨preferred, table⟩ := choice
  have next := sound.withZones same
  have members : ∀ z ∈ candidates table.zones preferred flags, z ∈ table.zones := fun z member =>
    ((mem_candidates_iff next.serving fun z leads => same ▸ chosen z leads).mp member).1
  apply (next.allocateAmong_written members (Nat.lt_of_not_le small) align).bind
  intro result _
  obtain ⟨answer, after⟩ := result
  cases answer with
  | ok addr => exact .pure _
  | error reason =>
      cases reason with
      | outOfMemory => exact .answer ⟨_, rfl⟩
      | _ => exact .pure _

theorem free_written (sound : a.Sound live) (addr : Nat) : (a.free addr).Written := by
  obtain ⟨found, table, computed, same, covering⟩ := sound.serving.find_eq addr
  apply Traced.Written.compute
  intro result answered
  obtain rfl : result = (found, table) := Except.ok.inj (answered.symm.trans computed)
  cases found with
  | none => exact .answer ⟨_, rfl⟩
  | some z =>
      obtain ⟨member, _⟩ := (covering z).mp rfl
      apply ((sound.serving.sound z member).free_written addr).bind
      intro result _
      obtain ⟨answer, zone⟩ := result
      cases answer with
      | ok pages => exact .answer ⟨_, rfl⟩
      | error reason => exact .answer ⟨_, rfl⟩

theorem list_answers (sound : a.Sound live) (blocks : Bool) : (a.list blocks).Answers () := by
  have total := sound.serving.pages_word
  have fewer : (a.zones.zones.map Zone.freePages).sum ≤ (a.zones.zones.map Zone.totalPages).sum :=
    List.sum_le_sum fun z member => (sound.serving.sound z member).freePages_le
  have free := (Nat.mul_le_mul_right pageSize fewer).trans_lt total
  apply Traced.Answers.bind
  · apply Traced.Answers.report
    simp only [Event.text, PageEvent.text, bytesOf_eq total, bytesOf_eq free, ok_bind]
    exact ⟨_, rfl⟩
  · apply Traced.Answers.forM
    exact fun z member => (sound.serving.sound z member).list_answers blocks

end Sound

end PageAllocator

end ZonedMemory
