import ZonedMemory.Proofs.MemoryMap.Classification

namespace ZonedMemory.MemoryMap

/-!
How much of what the boot protocol reports ends up in the map. A map is exact but for the ranges that
find no room, and since the ranges of a kind are determined by its addresses, the order of the entries
plays no part unless one of them finds none.
-/

/-- Every range of a kind has room when its turn comes. -/
def NoneDropped (entries : List BootEntry) (kind : MemoryKind) : Prop :=
  ∀ entry, entry.kind = kind → ¬ MemoryMap.empty.Drops entries entry

/-- Every range has room when its turn comes, and so has usable memory to make way for those of another
kind. -/
def NoneRefused (entries : List BootEntry) : Prop :=
  (∀ kind, NoneDropped entries kind) ∧ ∀ entry, ¬ Unexcluded entries entry

/-- What a map has to do with the entries that it was built from. -/
structure Exact (entries : List BootEntry) (m : MemoryMap) : Prop where
  normal : m.Normal
  within : ∀ kind addr, m.Covers kind addr → Reports entries kind addr
  apart : ∀ kind ≠ .usable, ∀ addr, m.Covers kind addr → ¬ m.Covers .usable addr
  others : ∀ kind ≠ .usable, NoneDropped entries kind →
    ∀ addr, m.Covers kind addr ↔ Reports entries kind addr
  usable : NoneRefused entries → ∀ addr, m.Covers .usable addr ↔
    Reports entries .usable addr ∧ ∀ kind ≠ .usable, ¬ Reports entries kind addr

variable {m other sorted : MemoryMap} {kind : MemoryKind} {addr : Nat} {entries permuted : List BootEntry}

theorem not_covers_empty : ¬ MemoryMap.empty.Covers kind addr := by
  rw [Covers, empty_of]
  exact RegionSet.covers_nil

theorem Entered.reports (entered : MemoryMap.empty.Entered entries sorted)
    (covers : sorted.Covers kind addr) : Reports entries kind addr :=
  (entered.within kind addr covers).resolve_left not_covers_empty

theorem Entered.covers_iff (entered : MemoryMap.empty.Entered entries sorted)
    (complete : NoneDropped entries kind) : sorted.Covers kind addr ↔ Reports entries kind addr := by
  constructor
  · exact entered.reports
  · intro reports
    obtain ⟨entry, member, rfl, holds⟩ := reports
    exact entered.covers entry member (complete entry rfl) addr holds

/-- What is entered first and then made way for is exact. -/
theorem Exact.of_excludes (entered : MemoryMap.empty.Entered entries sorted)
    (excludes : sorted.Excludes (sorted.exclusions MemoryKind.all) m) : Exact entries m := by
  have kept (kind : MemoryKind) (different : kind ≠ .usable) (addr : Nat) :
      m.Covers kind addr ↔ sorted.Covers kind addr := by
    rw [Covers, excludes.others kind different, Covers]
  have untaken (addr : Nat) : (∀ entry ∈ sorted.exclusions MemoryKind.all, ¬ entry.range.Holds addr) ↔
      ∀ kind ≠ .usable, ¬ sorted.Covers kind addr := by
    constructor
    · rintro outside kind different ⟨r, listed, holds⟩
      exact outside ⟨r, kind⟩ (mem_exclusions.mpr ⟨kind.mem_all, different, listed⟩) holds
    · intro uncovered entry member holds
      obtain ⟨_, different, listed⟩ := mem_exclusions.mp member
      exact uncovered entry.kind different ⟨entry.range, listed, holds⟩
  refine ⟨excludes.formed.normal, fun kind addr covers => ?_, fun kind different addr covers usable => ?_,
    fun kind different room addr => ?_, fun smooth addr => ?_⟩
  · by_cases usable : kind = .usable
    · subst usable
      exact entered.reports (excludes.usable addr covers).1
    · exact entered.reports ((kept kind usable addr).mp covers)
  · exact (untaken addr).mp (excludes.usable addr usable).2 kind different ((kept kind different addr).mp covers)
  · rw [kept kind different, entered.covers_iff room]
  · have splits (entry : BootEntry) : ¬ sorted.Resists (sorted.exclusions MemoryKind.all) entry := by
      rw [← unexcluded_iff entered.sorts]
      exact smooth.2 entry
    have covers_iff (kind : MemoryKind) : sorted.Covers kind addr ↔ Reports entries kind addr :=
      entered.covers_iff (smooth.1 kind)
    have made : m.Covers .usable addr ↔
        sorted.Covers .usable addr ∧ ∀ kind ≠ .usable, ¬ sorted.Covers kind addr := by
      rw [← untaken]
      exact ⟨excludes.usable addr, fun wanted => excludes.whole splits addr wanted.1 wanted.2⟩
    simp only [made, covers_iff]

theorem reports_perm (permutation : permuted.Perm entries) :
    Reports permuted kind addr ↔ Reports entries kind addr := by
  simp only [Reports, permutation.mem_iff]

/-- Maps of the same entries in any order are the same if nothing is refused in either order. -/
theorem Exact.ranges_eq (first : Exact entries m) (second : Exact permuted other)
    (permutation : permuted.Perm entries) (smooth : NoneRefused entries) (smoothToo : NoneRefused permuted)
    (kind : MemoryKind) : (other.of kind).ranges = (m.of kind).ranges := by
  apply (second.normal kind).ext (first.normal kind)
  intro addr
  change other.Covers kind addr ↔ m.Covers kind addr
  by_cases usable : kind = .usable
  · subst usable
    simp only [first.usable smooth, second.usable smoothToo, reports_perm permutation]
  · rw [first.others kind usable (smooth.1 kind), second.others kind usable (smoothToo.1 kind),
      reports_perm permutation]

/-- Reading in entries that end inside the address space always comes to a map, whoever reads along.
The map is exact up to the ranges without room, which are those that are warned of, and where all have
room the order of the entries does not matter. -/
theorem ofBootEntries_exact (entries : List BootEntry)
    (words : ∀ entry ∈ entries, entry.range.base + entry.range.size < 2 ^ 64) :
    ∃ m, (∀ threshold, ((ofBootEntries entries).read threshold).2 = .ok m) ∧ Exact entries m ∧
      Warned entries (ofBootEntries entries).events ∧
      (NoneRefused entries → ∀ permuted : List BootEntry, permuted.Perm entries → NoneRefused permuted →
        ∃ other, (∀ threshold, ((ofBootEntries permuted).read threshold).2 = .ok other) ∧
          ∀ kind, (other.of kind).ranges = (m.of kind).ranges) := by
  obtain ⟨sorted, m, answers, entered, excludes, warned⟩ := ofBootEntries_answers entries words
  have first := Exact.of_excludes entered excludes
  refine ⟨m, answers.read, first, warned, fun smooth permuted permutation smoothToo => ?_⟩
  obtain ⟨_, other, answersToo, enteredToo, excludesToo, _⟩ :=
    ofBootEntries_answers permuted fun entry member => words entry (permutation.mem_iff.mp member)
  have second := Exact.of_excludes enteredToo excludesToo
  exact ⟨other, answersToo.read, first.ranges_eq second permutation smooth smoothToo⟩

theorem Warned.noneRefused {reported : List Event} (warned : Warned entries reported)
    (silent : ∀ entry : BootEntry, .map (.dropped entry.kind entry.range) ∉ reported ∧
      .map (.notExcluded entry.kind entry.range) ∉ reported) : NoneRefused entries := by
  constructor
  · intro kind entry _ drops
    exact (silent entry).1 ((warned.dropped_iff entry).mpr drops)
  · intro entry unexcluded
    exact (silent entry).2 ((warned.notExcluded_iff entry).mpr unexcluded)

/-- Usable memory in two parts that touch, with a reserved page in the middle of the first. -/
def layered : List BootEntry :=
  [⟨⟨0, 16384⟩, .usable⟩, ⟨⟨4096, 4096⟩, .reserved⟩, ⟨⟨16384, 4096⟩, .usable⟩]

theorem ofBootEntries_exact_layered :
    (∀ entry ∈ layered, entry.range.base + entry.range.size < 2 ^ 64) ∧
      NoneRefused layered ∧ NoneRefused layered.reverse ∧
      ∃ m, (∀ threshold, ((ofBootEntries layered).read threshold).2 = .ok m) ∧
        Exact layered m ∧ Warned layered (ofBootEntries layered).events ∧
        ∃ other, (∀ threshold, ((ofBootEntries layered.reverse).read threshold).2 = .ok other) ∧
          ∀ kind, (other.of kind).ranges = (m.of kind).ranges := by
  have words : ∀ entry ∈ layered, entry.range.base + entry.range.size < 2 ^ 64 := by decide
  have wordsToo : ∀ entry ∈ layered.reverse, entry.range.base + entry.range.size < 2 ^ 64 := by decide
  have smooth : NoneRefused layered := by
    have events : (ofBootEntries layered).events = [.map (.built ⟨[⟨0, 4096⟩, ⟨8192, 12288⟩]⟩)] := rfl
    obtain ⟨_, _, _, _, _, warned⟩ := ofBootEntries_answers layered words
    exact warned.noneRefused (by simp [events])
  have reversed : NoneRefused layered.reverse := by
    have events : (ofBootEntries layered.reverse).events =
        [.map (.built ⟨[⟨0, 4096⟩, ⟨8192, 12288⟩]⟩)] := rfl
    obtain ⟨_, _, _, _, _, warned⟩ := ofBootEntries_answers layered.reverse wordsToo
    exact warned.noneRefused (by simp [events])
  obtain ⟨m, answers, exact, warned, same⟩ := ofBootEntries_exact layered words
  exact ⟨words, smooth, reversed, m, answers, exact, warned,
    same smooth layered.reverse (List.reverse_perm _) reversed⟩

end ZonedMemory.MemoryMap
