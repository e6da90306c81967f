import ZonedMemory.Proofs.Buddy.Run
import ZonedMemory.Zone

namespace ZonedMemory.Zone

/-!
A zone among others. The ledger lists the live blocks of all zones; the zone's buddy knows those
that start in its own range, and the zone's count of free pages is the buddy's.
-/

def Covers (z : Zone) (addr : Nat) : Prop :=
  z.range.base ≤ addr ∧ addr < z.range.base + z.range.size

instance (z : Zone) : DecidablePred z.Covers := fun _ => inferInstanceAs (Decidable (_ ∧ _))

def Owns (z : Zone) (x : Block) : Prop := z.Covers x.addr

instance (z : Zone) : DecidablePred z.Owns := fun x => inferInstanceAs (Decidable (z.Covers x.addr))

structure Sound (z : Zone) (live : List Block) : Prop where
  settled : z.buddy.Settled (live.filter fun x => z.Owns x)
  range : z.range = z.buddy.range
  totalPages : z.totalPages = z.buddy.pages.size
  mirror : z.freePages = z.buddy.freePages

def fixed (z : Zone) : Nat × Range × ZoneFlags × Nat := (z.index, z.range, z.flags, z.totalPages)

variable {z after : Zone} {live other : List Block} {x y : Block} {addr : Nat}

theorem index_eq (same : after.fixed = z.fixed) : after.index = z.index := congrArg Prod.fst same

theorem range_eq (same : after.fixed = z.fixed) : after.range = z.range :=
  congrArg (fun parts => parts.2.1) same

theorem flags_eq (same : after.fixed = z.fixed) : after.flags = z.flags :=
  congrArg (fun parts => parts.2.2.1) same

theorem owns_iff (same : after.fixed = z.fixed) : after.Owns x ↔ z.Owns x := by
  rw [Owns, Owns, Covers, Covers, range_eq same]

namespace Sound

theorem congr (sound : z.Sound live)
    (same : (other.filter fun x => z.Owns x) = live.filter fun x => z.Owns x) : z.Sound other :=
  ⟨same ▸ sound.settled, sound.range, sound.totalPages, sound.mirror⟩

theorem perm (sound : z.Sound live) (same : live.Perm other) : z.Sound other :=
  ⟨sound.settled.perm (same.filter _), sound.range, sound.totalPages, sound.mirror⟩

theorem withStats (sound : z.Sound live) (stats : ZoneStats) :
    Sound { z with stats := stats } live :=
  ⟨sound.settled, sound.range, sound.totalPages, sound.mirror⟩

theorem placed (sound : z.Sound live) : z.buddy.Placed := by
  obtain ⟨⟨chains, layout⟩, _⟩ := sound.settled
  exact layout.placed

theorem word (sound : z.Sound live) : z.range.base + z.range.size < 2 ^ 64 := by
  rw [sound.range]
  exact sound.placed.word

theorem owns_iff (sound : z.Sound live) :
    z.Owns x ↔ z.buddy.firstFrame ≤ x.start ∧ x.start < z.buddy.firstFrame + z.buddy.pages.size := by
  rw [Owns, Covers, sound.range, sound.placed.base, sound.placed.size, ← Nat.add_mul, Block.addr,
    Nat.mul_le_mul_right_iff pageSize_pos, Nat.mul_lt_mul_right pageSize_pos]

theorem mem_filter (_ : z.Sound live) :
    x ∈ (live.filter fun x => z.Owns x) ↔ x ∈ live ∧ z.Owns x := by
  rw [List.mem_filter, decide_eq_true_eq]

theorem inside (sound : z.Sound live) (member : x ∈ live) (owns : z.Owns x) :
    z.range.base ≤ x.addr ∧ x.addr + x.bytes ≤ z.range.base + z.range.size := by
  obtain ⟨⟨chains, layout⟩, _⟩ := sound.settled
  have inside := layout.tiled.inside x (.inr (.inr (sound.mem_filter.mpr ⟨member, owns⟩)))
  refine ⟨owns.1, ?_⟩
  rw [sound.range, sound.placed.base, sound.placed.size, ← Nat.add_mul, x.addr_add_bytes]
  exact Nat.mul_le_mul_right _ inside.2

theorem natural (sound : z.Sound live) (member : x ∈ live) (owns : z.Owns x) : x.Natural := by
  obtain ⟨⟨chains, layout⟩, _⟩ := sound.settled
  exact layout.tiled.natural x (.inr (.inr (sound.mem_filter.mpr ⟨member, owns⟩)))

theorem order_le (sound : z.Sound live) (member : x ∈ live) (owns : z.Owns x) : x.order ≤ Order.top := by
  obtain ⟨⟨chains, layout⟩, _⟩ := sound.settled
  exact layout.tiled.small x (.inr (.inr (sound.mem_filter.mpr ⟨member, owns⟩)))

end Sound

theorem allocate_sound (sound : z.Sound live) (order align : Nat) :
    (∃ (x : Block) (after : Zone),
      (z.allocate order align).outcome = .ok (.ok x.addr, after) ∧ x.order = order ∧
      2 ^ Nat.clog 2 align ∣ x.addr ∧ (after.fixed = z.fixed ∧ after.stats = z.stats) ∧ z.Owns x ∧
      (∀ y ∈ live, z.Owns y → x.Apart y) ∧ after.Sound (x :: live)) ∨
    ∃ reason, (z.allocate order align).outcome = .ok (.error reason, z) := by
  rcases Buddy.allocate_settled sound.settled order align with
    ⟨x, buddy, answer, sameOrder, aligned, settled, range⟩ | ⟨reason, answer⟩
  · have frames := sound.settled.same_frames settled range
    obtain ⟨⟨chains, layout⟩, _⟩ := id settled
    have inside := layout.tiled.inside x (.inr (.inr (List.mem_cons_self ..)))
    have owns : z.Owns x := by
      have := x.start_lt_stop
      rw [sound.owns_iff]
      omega
    have gained : ((x :: live).filter fun x => z.Owns x) = x :: live.filter fun x => z.Owns x := by
      rw [List.filter_cons_of_pos (by simpa using owns)]
    refine .inl ⟨x, { z with buddy := buddy, freePages := buddy.freePages }, ?_, sameOrder, aligned,
      ⟨rfl, rfl⟩, owns, fun y member other => ?_, ?_, ?_, ?_, rfl⟩
    · simp only [allocate, Traced.outcome_bind, answer, ok_bind, Traced.outcome_pure]
    · have listed := sound.mem_filter.mpr ⟨member, other⟩
      refine layout.tiled.apart x (.inr (.inr (List.mem_cons_self ..))) y
        (.inr (.inr (List.mem_cons_of_mem _ listed))) fun same => ?_
      exact (List.nodup_cons.mp layout.distinct).1 (same ▸ listed)
    · rw [← gained] at settled
      exact settled
    · exact sound.range.trans range.symm
    · exact sound.totalPages.trans frames.2.symm
  · refine .inr ⟨reason, ?_⟩
    simp only [allocate, Traced.outcome_bind, answer, ok_bind, Traced.outcome_pure]

theorem free_sound (sound : z.Sound live) (member : x ∈ live) (owns : z.Owns x) :
    ∃ after : Zone, (z.free x.addr).outcome = .ok (.ok x.pages, after) ∧
      (after.fixed = z.fixed ∧ after.stats = z.stats) ∧
      after.Sound (live.filter fun y => y.addr ≠ x.addr) := by
  have listed := sound.mem_filter.mpr ⟨member, owns⟩
  obtain ⟨⟨chains, layout⟩, _⟩ := sound.settled
  obtain ⟨buddy, answer, settled, range⟩ := Buddy.free_live sound.settled listed
  have frames := sound.settled.same_frames settled range
  have left : ((live.filter fun y => y.addr ≠ x.addr).filter fun y => z.Owns y) =
      (live.filter fun y => z.Owns y).erase x := by
    rw [List.filter_comm]
    exact layout.partition.filter_addr listed
  refine ⟨{ z with buddy := buddy, freePages := buddy.freePages }, ?_, ⟨rfl, rfl⟩, ?_, ?_, ?_, rfl⟩
  · simp only [free, Traced.outcome_bind, answer, ok_bind, Traced.outcome_pure]
  · rw [← left] at settled
    exact settled
  · exact sound.range.trans range.symm
  · exact sound.totalPages.trans frames.2.symm

theorem free_refused (sound : z.Sound live) (dead : ∀ x ∈ live, z.Owns x → x.addr ≠ addr) :
    (z.free addr).outcome = .ok (.error (z.buddy.refusal addr), z) := by
  obtain ⟨⟨chains, layout⟩, _⟩ := sound.settled
  have refused := Buddy.free_refused layout fun x member =>
    dead x (sound.mem_filter.mp member).1 (sound.mem_filter.mp member).2
  simp only [free, Traced.outcome_bind, refused, ok_bind, Traced.outcome_pure]

end ZonedMemory.Zone
