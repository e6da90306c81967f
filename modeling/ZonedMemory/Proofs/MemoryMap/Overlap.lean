import ZonedMemory.Proofs.MemoryMap.Exactness
import ZonedMemory.Proofs.Range.Count

namespace ZonedMemory.MemoryMap

/-!
Memory of several kinds. Only usable memory makes way for other kinds, so two of the others may both
cover an address. Where no address is so shared, the order of the kinds plays no part and the sizes of
the kinds count every address once.
-/

/-- Two kinds cover the address. -/
def Shared (m : MemoryMap) (addr : Nat) : Prop :=
  ∃ kind other, kind ≠ other ∧ m.Covers kind addr ∧ m.Covers other addr

/-- The address is reported under two kinds of which neither makes way for the other. -/
def Contested (entries : List BootEntry) (addr : Nat) : Prop :=
  ∃ kind other, kind ≠ other ∧ kind ≠ .usable ∧ other ≠ .usable ∧
    Reports entries kind addr ∧ Reports entries other addr

/-- What a map says of kinds and sizes, by the addresses that two kinds cover. -/
structure Attributes (m : MemoryMap) (entries : List BootEntry) : Prop where
  contested : ∀ addr, m.Shared addr → Contested entries addr
  shared : (∀ kind, NoneDropped entries kind) → ∀ addr, Contested entries addr → m.Shared addr
  kindOf : ∀ addr, ∃ found, m.kindOf? addr = .ok found ∧
    (∀ kind, found = some kind → m.Covers kind addr) ∧ (found = none → ∀ kind, ¬ m.Covers kind addr)
  /-- The kinds may be tried in any order just when no two cover the address. -/
  unordered_iff : ∀ addr, (∀ kinds : List MemoryKind, kinds.Perm MemoryKind.all →
    m.kindAmong addr kinds = m.kindOf? addr) ↔ ¬ m.Shared addr
  totals : ∃ sizes : MemoryKind → Nat, (∀ kind, m.total kind = .ok (sizes kind)) ∧
    ((MemoryKind.all.map sizes).sum = {addr | ∃ kind, m.Covers kind addr}.ncard ↔
      ∀ addr, ¬ m.Shared addr)

variable {m : MemoryMap} {kind other : MemoryKind} {kinds : List MemoryKind} {addr : Nat}
  {entries : List BootEntry}

section Formed

variable (formed : m.WellFormed)
include formed

theorem kindAmong_covered (covers : m.Covers kind addr) :
    m.kindAmong addr (kind :: kinds) = .ok (some kind) := by
  obtain ⟨found, answer, holds⟩ := (formed kind).finds addr
  obtain ⟨r, listed, inside⟩ := covers
  obtain rfl := (holds r).mpr ⟨listed, inside⟩
  simp only [kindAmong, answer, ok_bind, Option.isSome_some, if_true, pure_eq_ok]

theorem kindAmong_uncovered (uncovered : ¬ m.Covers kind addr) :
    m.kindAmong addr (kind :: kinds) = m.kindAmong addr kinds := by
  obtain ⟨found, answer, holds⟩ := (formed kind).finds addr
  cases found with
  | some r => exact absurd ⟨r, (holds r).mp rfl⟩ uncovered
  | none => simp only [kindAmong, answer, ok_bind, Option.isSome_none, Bool.false_eq_true, if_false]

theorem kindAmong_answers (kinds : List MemoryKind) (addr : Nat) :
    ∃ found, m.kindAmong addr kinds = .ok found ∧
      (∀ kind, found = some kind → m.Covers kind addr) ∧
      (found = none → ∀ kind ∈ kinds, ¬ m.Covers kind addr) := by
  induction kinds with
  | nil => exact ⟨none, rfl, nofun, fun _ => List.forall_mem_nil _⟩
  | cons kind rest ih =>
      by_cases covers : m.Covers kind addr
      · refine ⟨some kind, kindAmong_covered formed covers, fun other same => ?_, nofun⟩
        exact Option.some.inj same ▸ covers
      · obtain ⟨found, answer, right, none⟩ := ih
        rw [kindAmong_uncovered formed covers]
        exact ⟨found, answer, right, fun missing => List.forall_mem_cons.mpr ⟨covers, none missing⟩⟩

/-- With one kind at most at an address, it is found whenever it is among the kinds that are tried. -/
theorem kindAmong_unshared (unshared : ¬ m.Shared addr)
    (every : ∀ kind, m.Covers kind addr → kind ∈ kinds) :
    m.kindAmong addr kinds = m.kindOf? addr := by
  obtain ⟨found, answer, right, none⟩ := kindAmong_answers formed kinds addr
  obtain ⟨usual, usualAnswer, usualRight, usualNone⟩ := kindAmong_answers formed MemoryKind.all addr
  rw [answer, kindOf?, usualAnswer]
  congr 1
  cases found with
  | none =>
      cases usual with
      | none => rfl
      | some kind => exact absurd (usualRight kind rfl) (none rfl kind (every kind (usualRight kind rfl)))
  | some kind =>
      have covers := right kind rfl
      cases usual with
      | none => exact absurd covers (usualNone rfl kind kind.mem_all)
      | some other =>
          by_contra different
          exact unshared ⟨kind, other, fun same => different (congrArg some same), covers, usualRight other rfl⟩

theorem unordered_iff (addr : Nat) : (∀ kinds : List MemoryKind, kinds.Perm MemoryKind.all →
    m.kindAmong addr kinds = m.kindOf? addr) ↔ ¬ m.Shared addr := by
  constructor
  · rintro same ⟨kind, other, different, covers, otherCovers⟩
    -- either kind is found when it is tried first
    have first (kind : MemoryKind) (covers : m.Covers kind addr) : m.kindOf? addr = .ok (some kind) := by
      rw [← same (kind :: MemoryKind.all.erase kind) (List.perm_cons_erase kind.mem_all).symm]
      exact kindAmong_covered formed covers
    have found := (first kind covers).symm.trans (first other otherCovers)
    exact different (Option.some.inj (Except.ok.inj found))
  · intro unshared kinds permutation
    exact kindAmong_unshared formed unshared fun kind _ => permutation.mem_iff.mpr kind.mem_all

theorem totals_iff : ∃ sizes : MemoryKind → Nat, (∀ kind, m.total kind = .ok (sizes kind)) ∧
    ((MemoryKind.all.map sizes).sum = {addr | ∃ kind, m.Covers kind addr}.ncard ↔
      ∀ addr, ¬ m.Shared addr) := by
  refine ⟨fun kind => {addr | m.Covers kind addr}.ncard, fun kind => (formed kind).faithful.total, ?_⟩
  have finite : ∀ kind ∈ MemoryKind.all, {addr | m.Covers kind addr}.Finite := by
    intro kind _
    refine finite_exists_mem fun r _ => ?_
    rw [Range.setOf_holds]
    exact Finset.finite_toSet _
  have all : {addr | ∃ kind, m.Covers kind addr} = {addr | ∃ kind ∈ MemoryKind.all, m.Covers kind addr} := by
    simp only [MemoryKind.mem_all, true_and]
  have distinct : MemoryKind.all.Nodup := by decide
  rw [all, (ncard_exists_mem_iff finite).2]
  constructor
  · rintro apart addr ⟨kind, other, different, covers, otherCovers⟩
    have symmetric : Std.Symm fun kind other => ∀ addr, m.Covers kind addr → ¬ m.Covers other addr :=
      ⟨fun _ _ apart addr covers otherCovers => apart addr otherCovers covers⟩
    exact apart.forall kind.mem_all other.mem_all different addr covers otherCovers
  · intro unshared
    exact distinct.imp fun different addr covers otherCovers =>
      unshared addr ⟨_, _, different, covers, otherCovers⟩

end Formed

namespace Exact

theorem contested (exact : Exact entries m) (shared : m.Shared addr) : Contested entries addr := by
  obtain ⟨kind, other, different, covers, otherCovers⟩ := shared
  have unusable : kind ≠ .usable := by
    rintro rfl
    exact exact.apart other (Ne.symm different) addr otherCovers covers
  have otherUnusable : other ≠ .usable := by
    rintro rfl
    exact exact.apart kind unusable addr covers otherCovers
  exact ⟨kind, other, different, unusable, otherUnusable, exact.within kind addr covers,
    exact.within other addr otherCovers⟩

theorem shared (exact : Exact entries m) (complete : ∀ kind, NoneDropped entries kind)
    (contested : Contested entries addr) : m.Shared addr := by
  obtain ⟨kind, other, different, unusable, otherUnusable, reports, otherReports⟩ := contested
  exact ⟨kind, other, different, (exact.others kind unusable (complete kind) addr).mpr reports,
    (exact.others other otherUnusable (complete other) addr).mpr otherReports⟩

end Exact

/-- Entries that end inside the address space come to a map in which usable memory is no other memory.
Whatever else two kinds share is reported under both, and just there the kind of an address depends on
the order of the kinds, and its size counts twice. -/
theorem ofBootEntries_attributes (entries : List BootEntry)
    (words : ∀ entry ∈ entries, entry.range.base + entry.range.size < 2 ^ 64) :
    ∃ m, (∀ threshold, ((ofBootEntries entries).read threshold).2 = .ok m) ∧ m.Attributes entries ∧
      Warned entries (ofBootEntries entries).events := by
  obtain ⟨sorted, m, answers, entered, excludes, warned⟩ := ofBootEntries_answers entries words
  have exact := Exact.of_excludes entered excludes
  have formed := excludes.formed
  refine ⟨m, answers.read, ⟨fun _ => exact.contested, fun complete _ => exact.shared complete, fun addr => ?_,
    unordered_iff formed, totals_iff formed⟩, warned⟩
  obtain ⟨found, answer, right, none⟩ := kindAmong_answers formed MemoryKind.all addr
  exact ⟨found, answer, right, fun missing kind => none missing kind kind.mem_all⟩

/-- Usable memory that a reserved range cuts short, with a firmware table at the end of that range. -/
def overlaid : List BootEntry :=
  [⟨⟨0, 8192⟩, .usable⟩, ⟨⟨4096, 8192⟩, .reserved⟩, ⟨⟨8192, 4096⟩, .acpiTables⟩]

theorem overlaid_words : ∀ entry ∈ overlaid, entry.range.base + entry.range.size < 2 ^ 64 := by decide

theorem ranges_of_overlaid :
    (ofBootEntries overlaid).outcome.map (fun m => ((m.of .reserved).ranges, (m.of .acpiTables).ranges)) =
      .ok ([⟨4096, 8192⟩], [⟨8192, 4096⟩]) := by
  decide +kernel

theorem reserved_of_reports (unusable : kind ≠ .usable) (reports : Reports overlaid kind 4096) :
    kind = .reserved := by
  obtain ⟨entry, member, rfl, holds⟩ := reports
  simp only [overlaid, List.mem_cons, List.not_mem_nil, or_false] at member
  rcases member with rfl | rfl | rfl
  · exact absurd rfl unusable
  · rfl
  · simp [Range.Holds] at holds

theorem ofBootEntries_attributes_overlaid :
    (∀ entry ∈ overlaid, entry.range.base + entry.range.size < 2 ^ 64) ∧
      ∃ m, (∀ threshold, ((ofBootEntries overlaid).read threshold).2 = .ok m) ∧
        m.Attributes overlaid ∧ Warned overlaid (ofBootEntries overlaid).events ∧
        m.Shared 8192 ∧ ¬ m.Shared 4096 := by
  obtain ⟨m, answers, attributes, warned⟩ := ofBootEntries_attributes overlaid overlaid_words
  refine ⟨overlaid_words, m, answers, attributes, warned, ?_, ?_⟩
  · have events : (ofBootEntries overlaid).events = [.map (.built ⟨[⟨0, 4096⟩]⟩)] := rfl
    have smooth : NoneRefused overlaid := warned.noneRefused (by simp [events])
    refine attributes.shared smooth.1 8192 ?_
    exact ⟨.reserved, .acpiTables, by decide, by decide, by decide, by simp [overlaid, Reports, Range.Holds],
      by simp [overlaid, Reports, Range.Holds]⟩
  · intro shared
    obtain ⟨kind, other, different, unusable, otherUnusable, reports, otherReports⟩ :=
      attributes.contested 4096 shared
    rw [reserved_of_reports unusable reports, reserved_of_reports otherUnusable otherReports] at different
    exact different rfl

/-- Memory that is reserved and holds a firmware table is in the map twice. -/
theorem not_all_unshared :
    ¬ ∀ entries : List BootEntry, (∀ entry ∈ entries, entry.range.base + entry.range.size < 2 ^ 64) →
      ∀ m, (ofBootEntries entries).outcome = .ok m → ∀ addr, ¬ m.Shared addr := by
  intro claimed
  cases built : (ofBootEntries overlaid).outcome with
  | error fault => simpa [built, Except.map] using ranges_of_overlaid
  | ok m =>
      obtain ⟨reserved, tables⟩ :
          (m.of .reserved).ranges = [⟨4096, 8192⟩] ∧ (m.of .acpiTables).ranges = [⟨8192, 4096⟩] := by
        simpa [built, Except.map] using ranges_of_overlaid
      refine claimed overlaid overlaid_words m built 8192 ⟨.reserved, .acpiTables, by decide, ?_, ?_⟩
      · exact ⟨⟨4096, 8192⟩, by simp [reserved], by simp [Range.Holds]⟩
      · exact ⟨⟨8192, 4096⟩, by simp [tables], by simp [Range.Holds]⟩

end ZonedMemory.MemoryMap
