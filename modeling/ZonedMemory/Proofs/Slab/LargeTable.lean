import Mathlib.Data.List.Nodup
import ZonedMemory.Proofs.Word
import ZonedMemory.Slab.LargeTable

namespace ZonedMemory.LargeTable

/-!
The table of large allocations as a list without order: an entry is added and taken out, and the
place of its slot does not matter.
-/

structure Keeps (t : LargeTable) (ledger : List LargeAllocation) : Prop where
  size : t.slots.length = capacity
  counted : t.live = t.entries.length
  listed : t.entries.Perm ledger

variable {t : LargeTable} {ledger : List LargeAllocation} {entry : LargeAllocation} {addr slot : Nat}

theorem empty_keeps : empty.Keeps [] := by
  have none : empty.entries = [] := List.filterMap_replicate_of_none rfl
  refine ⟨List.length_replicate, ?_, ?_⟩
  · rw [none]
    rfl
  · rw [none]

theorem entries_set (live : Nat) (bound : slot < t.slots.length) (content : Option LargeAllocation) :
    entries ⟨t.slots.set slot content, live⟩ =
      (t.slots.take slot).filterMap id ++ (content.toList ++ (t.slots.drop (slot + 1)).filterMap id) := by
  rw [entries, List.set_eq_take_append_cons_drop, if_pos bound, List.filterMap_append]
  cases content <;> rfl

theorem entries_eq (bound : slot < t.slots.length) :
    t.entries = (t.slots.take slot).filterMap id ++
      (t.slots[slot].toList ++ (t.slots.drop (slot + 1)).filterMap id) := by
  rw [← entries_set t.live bound, List.set_getElem_self]

theorem Keeps.live_le (keeps : t.Keeps ledger) : t.live ≤ capacity := by
  rw [keeps.counted, ← keeps.size]
  exact List.length_filterMap_le _ _

theorem insert_keeps (keeps : t.Keeps ledger) (room : t.live < capacity) (entry : LargeAllocation) :
    ∃ after, t.insert entry = .ok (.ok (), after) ∧ after.Keeps (entry :: ledger) := by
  cases found : t.slots.findIdx? Option.isNone with
  | none =>
      have used : ∀ content ∈ t.slots, (id content).isSome = true := by
        intro content member
        have := List.findIdx?_eq_none_iff.mp found content member
        cases content with
        | none => cases this
        | some _ => rfl
      have full : t.entries.length = t.slots.length := List.filterMap_length_eq_length.mpr used
      have := keeps.size
      have := keeps.counted
      omega
  | some slot =>
      obtain ⟨bound, vacant, _⟩ := List.findIdx?_eq_some_iff_getElem.mp found
      have small : capacity < 2 ^ 64 := by decide
      have count := Word.add_eq (show t.live + 1 < 2 ^ 64 by omega)
      have joined : (entries ⟨t.slots.set slot (some entry), t.live + 1⟩).Perm (entry :: t.entries) := by
        rw [entries_set _ bound, entries_eq bound, Option.isNone_iff_eq_none.mp vacant]
        exact List.perm_middle
      refine ⟨⟨t.slots.set slot (some entry), t.live + 1⟩, ?_, ?_, ?_, ?_⟩
      · simp only [insert, found, count, ok_bind, pure_eq_ok]
      · exact List.length_set.trans keeps.size
      · rw [joined.length_eq, List.length_cons, keeps.counted]
      · exact joined.trans (keeps.listed.cons entry)

theorem remove_absent (keeps : t.Keeps ledger) (absent : ∀ entry ∈ ledger, entry.addr ≠ addr) :
    t.remove addr = .ok (none, t) := by
  have none : t.slots.findIdx? (fun slot => slot.any fun entry => entry.addr == addr) = none := by
    rw [List.findIdx?_eq_none_iff]
    intro content member
    cases content with
    | none => rfl
    | some entry =>
        have listed : entry ∈ t.entries := List.mem_filterMap.mpr ⟨some entry, member, rfl⟩
        simpa using absent entry (keeps.listed.mem_iff.mp listed)
  simp only [remove, none, pure_eq_ok]

theorem remove_listed (keeps : t.Keeps ledger) (distinct : (ledger.map LargeAllocation.addr).Nodup)
    (member : entry ∈ ledger) :
    ∃ after, t.remove entry.addr = .ok (some entry, after) ∧
      t.entries.Perm (entry :: after.entries) ∧
      after.Keeps (ledger.filter fun other => other.addr ≠ entry.addr) := by
  cases found : t.slots.findIdx? (fun slot => slot.any fun other => other.addr == entry.addr) with
  | none =>
      obtain ⟨content, listed, same⟩ := List.mem_filterMap.mp (keeps.listed.mem_iff.mpr member)
      have := List.findIdx?_eq_none_iff.mp found content listed
      rw [show content = some entry from same] at this
      simp at this
  | some slot =>
      obtain ⟨bound, matching, _⟩ := List.findIdx?_eq_some_iff_getElem.mp found
      obtain ⟨other, content, same⟩ := (Option.any_eq_true ..).mp matching
      have before : t.entries.Perm (other :: entries ⟨t.slots.set slot none, t.live - 1⟩) := by
        rw [entries_set _ bound, entries_eq bound, content]
        exact List.perm_middle
      have exchanged := keeps.listed.symm.trans before
      have inLedger : other ∈ ledger := exchanged.mem_iff.mpr (List.mem_cons_self ..)
      obtain rfl := List.inj_on_of_nodup_map distinct inLedger member (beq_iff_eq.mp same)
      have count := keeps.counted
      rw [before.length_eq, List.length_cons] at count
      have left := Word.sub_eq (show 1 ≤ t.live by omega)
      -- the entries left over are those of other addresses
      have others := exchanged.filter fun entry => entry.addr ≠ other.addr
      have elsewhere := (exchanged.map LargeAllocation.addr).nodup distinct
      rw [List.map_cons, List.nodup_cons] at elsewhere
      have kept : (entries ⟨t.slots.set slot none, t.live - 1⟩).filter
          (fun entry => entry.addr ≠ other.addr) = entries ⟨t.slots.set slot none, t.live - 1⟩ := by
        refine List.filter_eq_self.mpr fun later listed => decide_eq_true fun equal => ?_
        exact elsewhere.1 (equal ▸ List.mem_map_of_mem listed)
      rw [List.filter_cons_of_neg (by simp), kept] at others
      refine ⟨⟨t.slots.set slot none, t.live - 1⟩, ?_, before, ?_, ?_, others.symm⟩
      · simp only [remove, found, left, ok_bind, List.getElem?_eq_getElem bound, content,
          Option.join_some, pure_eq_ok]
      · exact List.length_set.trans keeps.size
      · change t.live - 1 = _
        omega

end ZonedMemory.LargeTable
