import ZonedMemory.Proofs.MemoryMap
import ZonedMemory.Proofs.RegionSet.Run

namespace ZonedMemory.MemoryMap

/-!
Reading in what the boot protocol reports. Entries are first sorted by kind, then everything of another
kind is taken out of usable memory. An entry is left out if those before it leave it no room among the
ranges of its kind, and taking a range out goes wrong if usable memory has no room to be split around it.
When that is so is said about the sets of ranges; what is reported is exactly that.
-/

def Bounded (m : MemoryMap) : Prop := ∀ kind, RegionSet.Bounded (m.of kind).ranges

def WellFormed (m : MemoryMap) : Prop := m.Each RegionSet.WellFormed

def Covers (m : MemoryMap) (kind : MemoryKind) (addr : Nat) : Prop :=
  RegionSet.Covers (m.of kind).ranges addr

/-- Some entry reports an address as of a kind. -/
def Reports (entries : List BootEntry) (kind : MemoryKind) (addr : Nat) : Prop :=
  ∃ entry ∈ entries, entry.kind = kind ∧ entry.range.Holds addr

/-- The ranges reported under a kind, to be added to its set. -/
def additions (entries : List BootEntry) (kind : MemoryKind) : List RegionSet.Change :=
  (entries.filter fun entry => entry.kind = kind).map fun entry => .add entry.range

/-- The set of every kind comes of adding the ranges reported under the kind, whatever is refused. -/
def Sorts (m : MemoryMap) (entries : List BootEntry) (sorted : MemoryMap) : Prop :=
  ∀ kind, (m.of kind).run (additions entries kind) = .ok (sorted.of kind)

/-- The entries before one leave no room for it among the ranges of its kind. -/
def Drops (m : MemoryMap) (entries : List BootEntry) (entry : BootEntry) : Prop :=
  ∃ before after, entries = before ++ entry :: after ∧
    (m.of entry.kind).DeniesAfter (additions before entry.kind) (.add entry.range)

/-- The ranges of the kinds listed, those of usable memory apart. -/
def exclusions (m : MemoryMap) (kinds : List MemoryKind) : List BootEntry :=
  (kinds.filter fun kind => kind ≠ .usable).flatMap fun kind =>
    (m.of kind).ranges.map fun range => ⟨range, kind⟩

def removals (taken : List BootEntry) : List RegionSet.Change :=
  taken.map fun entry => .subtract entry.range

/-- What is taken out before one range leaves usable memory no room to be split around it. -/
def Resists (m : MemoryMap) (taken : List BootEntry) (entry : BootEntry) : Prop :=
  ∃ before after, taken = before ++ entry :: after ∧
    m.usable.DeniesAfter (removals before) (.subtract entry.range)

/-- The entries come to sets among which usable memory has no room to be split around a range. -/
def Unexcluded (entries : List BootEntry) (entry : BootEntry) : Prop :=
  ∃ sorted, MemoryMap.empty.Sorts entries sorted ∧
    sorted.Resists (sorted.exclusions MemoryKind.all) entry

/-- Just what finds no room is warned of. -/
structure Warned (entries : List BootEntry) (reported : List Event) : Prop where
  dropped_iff : ∀ entry, .map (.dropped entry.kind entry.range) ∈ reported ↔
    MemoryMap.empty.Drops entries entry
  notExcluded_iff : ∀ entry, .map (.notExcluded entry.kind entry.range) ∈ reported ↔
    Unexcluded entries entry

variable {m left next sorted : MemoryMap} {kind : MemoryKind} {range : Range} {ranges : RegionSet}
  {addr : Nat} {entry other : BootEntry} {entries front back taken : List BootEntry} {kinds : List MemoryKind}
  {answer : Except RegionsFull Unit}

theorem empty_formed : MemoryMap.empty.WellFormed := by
  intro kind
  rw [empty_of]
  exact .empty

theorem WellFormed.bounded (formed : m.WellFormed) : m.Bounded := fun kind => (formed kind).bounded

theorem WellFormed.normal (formed : m.WellFormed) : m.Normal := fun kind => (formed kind).normal

/-- An element of two lists one after the other has its turn in the first, or in the second after all of
the first. -/
theorem exists_split_append {α : Type} {first second : List α} {x : α} {P : List α → Prop} :
    (∃ before after, first ++ second = before ++ x :: after ∧ P before) ↔
      (∃ before after, first = before ++ x :: after ∧ P before) ∨
        ∃ before after, second = before ++ x :: after ∧ P (first ++ before) := by
  constructor
  · rintro ⟨before, after, split, holds⟩
    rcases List.append_eq_append_iff.mp split with ⟨more, rfl, later⟩ | ⟨rest, rfl, later⟩
    · exact .inr ⟨more, after, later, holds⟩
    · cases rest with
      | nil =>
          rw [List.append_nil]
          exact .inr ⟨[], after, later.symm, by rwa [List.append_nil]⟩
      | cons head rest =>
          obtain ⟨rfl, rfl⟩ := List.cons.inj later
          exact .inl ⟨before, rest, rfl, holds⟩
  · rintro (⟨before, after, rfl, holds⟩ | ⟨before, after, rfl, holds⟩)
    · exact ⟨before, after ++ second, by simp, holds⟩
    · exact ⟨first ++ before, after, by simp, holds⟩

theorem exists_split_singleton {α : Type} {x y : α} {P : List α → Prop} :
    (∃ before after, [y] = before ++ x :: after ∧ P before) ↔ x = y ∧ P [] := by
  simp only [List.singleton_eq_append_iff, reduceCtorEq, and_false, or_false, List.cons.injEq]
  constructor
  · rintro ⟨_, _, ⟨rfl, rfl, _⟩, holds⟩
    exact ⟨rfl, holds⟩
  · rintro ⟨rfl, holds⟩
    exact ⟨[], [], ⟨rfl, rfl, rfl⟩, holds⟩

theorem additions_append :
    additions (front ++ back) kind = additions front kind ++ additions back kind := by
  simp [additions]

theorem removals_append : removals (front ++ back) = removals front ++ removals back := List.map_append

theorem insert_exists (kind : MemoryKind) (formed : m.WellFormed) (word : range.base + range.size < 2 ^ 64) :
    ∃ answer next, m.insert kind range = .ok (answer, next) ∧ next.WellFormed := by
  obtain ⟨answer, ranges, added, rangesFormed⟩ := (formed kind).add_exists word
  exact ⟨answer, m.set kind ranges, insert_eq_ok.mpr ⟨ranges, added, rfl⟩, Each.set formed rangesFormed⟩

/-- A range that is entered is covered, or nothing changes. No other address changes its kinds. -/
theorem insert_covers (formed : m.WellFormed) (inserted : m.insert kind range = .ok (answer, next))
    {other : MemoryKind} : next.Covers other addr ↔
      m.Covers other addr ∨ other = kind ∧ answer = .ok () ∧ range.Holds addr := by
  obtain ⟨ranges, added, rfl⟩ := insert_eq_ok.mp inserted
  by_cases same : other = kind
  · subst same
    have adds := (formed other).adds added
    rw [Covers, of_set_self, Covers]
    cases answer with
    | ok done => simpa using adds.union rfl addr
    | error refusal => simp [adds.unchanged rfl]
  · rw [Covers, of_set_of_ne same]
    simp [Covers, same]

theorem drops_append (sorts : m.Sorts front left) :
    m.Drops (front ++ back) entry ↔ m.Drops front entry ∨ left.Drops back entry := by
  simp only [Drops, exists_split_append, additions_append, RegionSet.deniesAfter_append (sorts entry.kind)]

theorem drops_singleton (formed : m.WellFormed)
    (inserted : m.insert entry.kind entry.range = .ok (answer, next)) :
    m.Drops [entry] other ↔ other = entry ∧ answer ≠ .ok () := by
  obtain ⟨ranges, added, _⟩ := insert_eq_ok.mp inserted
  have refusal := (formed entry.kind).denies_iff (c := .add entry.range) added
  rw [Drops, exists_split_singleton, ← refusal]
  refine and_congr_right fun same => ?_
  subst same
  exact RegionSet.deniesAfter_nil

/-- What entries add to a map: all of every entry that has room, and nothing that none of them reports. -/
structure Entered (m : MemoryMap) (entries : List BootEntry) (next : MemoryMap) : Prop where
  formed : next.WellFormed
  sorts : m.Sorts entries next
  kept : ∀ kind addr, m.Covers kind addr → next.Covers kind addr
  covers : ∀ entry ∈ entries, ¬ m.Drops entries entry → ∀ addr, entry.range.Holds addr →
    next.Covers entry.kind addr
  within : ∀ kind addr, next.Covers kind addr → m.Covers kind addr ∨ Reports entries kind addr

namespace Entered

theorem nil (formed : m.WellFormed) : m.Entered [] m where
  formed := formed
  sorts _ := rfl
  kept _ _ covers := covers
  covers := by simp
  within _ _ covers := .inl covers

theorem singleton (formed : m.WellFormed) (nextFormed : next.WellFormed)
    (inserted : m.insert entry.kind entry.range = .ok (answer, next)) : m.Entered [entry] next where
  formed := nextFormed
  sorts kind := by
    obtain ⟨ranges, added, rfl⟩ := insert_eq_ok.mp inserted
    by_cases same : kind = entry.kind
    · subst same
      rw [of_set_self]
      simpa [additions] using RegionSet.run_singleton (c := .add entry.range) added
    · rw [of_set_of_ne same]
      simp [additions, Ne.symm same, RegionSet.run]
  kept kind addr before := (insert_covers formed inserted).mpr (.inl before)
  covers listed member room addr holds := by
    obtain rfl := List.mem_singleton.mp member
    rw [drops_singleton formed inserted] at room
    have accepted : answer = .ok () := by simpa using room
    exact (insert_covers formed inserted).mpr (.inr ⟨rfl, accepted, holds⟩)
  within kind addr covers := by
    refine ((insert_covers formed inserted).mp covers).imp_right ?_
    rintro ⟨rfl, _, holds⟩
    exact ⟨entry, List.mem_singleton_self _, rfl, holds⟩

theorem append (first : m.Entered front left) (second : left.Entered back next) :
    m.Entered (front ++ back) next where
  formed := second.formed
  sorts kind := by
    rw [additions_append, RegionSet.run_append (first.sorts kind)]
    exact second.sorts kind
  kept kind addr before := second.kept kind addr (first.kept kind addr before)
  covers entry member room addr holds := by
    rw [drops_append first.sorts, not_or] at room
    rcases List.mem_append.mp member with early | late
    · exact second.kept _ addr (first.covers entry early room.1 addr holds)
    · exact second.covers entry late room.2 addr holds
  within kind addr covers := by
    rcases second.within kind addr covers with between | ⟨entry, member, reports⟩
    · refine (first.within kind addr between).imp_right fun reports => ?_
      obtain ⟨entry, member, reports⟩ := reports
      exact ⟨entry, List.mem_append_left _ member, reports⟩
    · exact .inr ⟨entry, List.mem_append_right _ member, reports⟩

end Entered

theorem classify_cons_ok (inserted : m.insert entry.kind entry.range = .ok (.ok (), left)) :
    classify (entry :: entries) m = classify entries left := by
  rw [classify, inserted]
  rfl

theorem classify_cons_error {refusal : RegionsFull}
    (inserted : m.insert entry.kind entry.range = .ok (.error refusal, left)) :
    classify (entry :: entries) m =
      Traced.report (.map (.dropped entry.kind entry.range)) >>= fun _ => classify entries left := by
  rw [classify, inserted]
  rfl

/-- Entering reports the entries that find no room, and nothing else. -/
theorem classify_answers (formed : m.WellFormed)
    (words : ∀ entry ∈ entries, entry.range.base + entry.range.size < 2 ^ 64) :
    ∃ next, (classify entries m).Answers next ∧ m.Entered entries next ∧
      ∀ event, event ∈ (classify entries m).events ↔
        ∃ entry, event = .map (.dropped entry.kind entry.range) ∧ m.Drops entries entry := by
  induction entries generalizing m with
  | nil => exact ⟨m, .pure m, .nil formed, by simp [classify, Drops]⟩
  | cons entry rest ih =>
      obtain ⟨entryWord, restWords⟩ := List.forall_mem_cons.mp words
      obtain ⟨answer, left, inserted, leftFormed⟩ := insert_exists entry.kind formed entryWord
      obtain ⟨next, answers, entered, reports⟩ := ih leftFormed restWords
      have first := Entered.singleton formed leftFormed inserted
      have drops (other : BootEntry) : m.Drops (entry :: rest) other ↔
          (other = entry ∧ answer ≠ .ok ()) ∨ left.Drops rest other := by
        rw [← drops_singleton formed inserted]
        exact drops_append first.sorts
      refine ⟨next, ?_, first.append entered, fun event => ?_⟩
      · cases answer with
        | ok done =>
            rw [classify_cons_ok inserted]
            exact answers
        | error refusal =>
            obtain ⟨text, written⟩ := Range.text_written entryWord
            have line : (Traced.report (.map (.dropped entry.kind entry.range))).Answers () :=
              .report ⟨_, by rw [Event.text, MapEvent.text, written]; rfl⟩
            rw [classify_cons_error inserted]
            exact line.bind answers
      · cases answer with
        | ok done =>
            rw [classify_cons_ok inserted, reports]
            simp [drops]
        | error refusal =>
            rw [classify_cons_error inserted, Traced.events_bind (Traced.outcome_report _),
              Traced.events_report, List.singleton_append, List.mem_cons, reports]
            simp [drops, exists_or, and_or_left]

theorem exclusions_congr (same : ∀ kind ≠ .usable, left.of kind = m.of kind) :
    left.exclusions kinds = m.exclusions kinds := by
  refine List.flatMap_congr fun kind member => ?_
  rw [same kind (by simpa using (List.mem_filter.mp member).2)]

theorem mem_exclusions : entry ∈ m.exclusions kinds ↔
    entry.kind ∈ kinds ∧ entry.kind ≠ .usable ∧ entry.range ∈ (m.of entry.kind).ranges := by
  simp only [exclusions, List.mem_flatMap, List.mem_filter, List.mem_map, decide_eq_true_eq]
  constructor
  · rintro ⟨kind, ⟨listed, different⟩, range, member, rfl⟩
    exact ⟨listed, different, member⟩
  · rintro ⟨listed, different, member⟩
    exact ⟨entry.kind, ⟨listed, different⟩, entry.range, member, rfl⟩

theorem remove_exists (kind : MemoryKind) (formed : m.WellFormed) (word : range.base + range.size < 2 ^ 64) :
    ∃ answer next, m.remove kind range = .ok (answer, next) ∧ next.WellFormed := by
  obtain ⟨answer, ranges, removed, rangesFormed⟩ := (formed kind).subtract_exists word
  exact ⟨answer, m.set kind ranges, remove_eq_ok.mpr ⟨ranges, removed, rfl⟩, Each.set formed rangesFormed⟩

theorem resists_append (runs : m.usable.run (removals front) = .ok left.usable) :
    m.Resists (front ++ back) entry ↔ m.Resists front entry ∨ left.Resists back entry := by
  simp only [Resists, exists_split_append, removals_append, RegionSet.deniesAfter_append runs]

theorem resists_singleton (formed : m.WellFormed)
    (removed : m.remove .usable entry.range = .ok (answer, next)) :
    m.Resists [entry] other ↔ other = entry ∧ answer ≠ .ok () := by
  obtain ⟨ranges, subtracted, _⟩ := remove_eq_ok.mp removed
  have refusal := (formed .usable).denies_iff (c := .subtract entry.range) subtracted
  rw [Resists, exists_split_singleton, ← refusal]
  refine and_congr_right fun same => ?_
  subst same
  exact RegionSet.deniesAfter_nil

/-- Usable memory only loses addresses, and keeps none of those that are taken out. Where it has room to be
split it keeps all others. -/
structure Excludes (m : MemoryMap) (taken : List BootEntry) (next : MemoryMap) : Prop where
  formed : next.WellFormed
  others : ∀ kind ≠ .usable, next.of kind = m.of kind
  runs : m.usable.run (removals taken) = .ok next.usable
  usable : ∀ addr, next.Covers .usable addr → m.Covers .usable addr ∧ ∀ entry ∈ taken, ¬ entry.range.Holds addr
  whole : (∀ entry, ¬ m.Resists taken entry) → ∀ addr, m.Covers .usable addr →
    (∀ entry ∈ taken, ¬ entry.range.Holds addr) → next.Covers .usable addr

namespace Excludes

theorem nil (formed : m.WellFormed) : m.Excludes [] m where
  formed := formed
  others _ _ := rfl
  runs := rfl
  usable _ covers := ⟨covers, List.forall_mem_nil _⟩
  whole _ _ covers _ := covers

theorem singleton (formed : m.WellFormed) (nextFormed : next.WellFormed)
    (removed : m.remove .usable entry.range = .ok (answer, next)) : m.Excludes [entry] next := by
  obtain ⟨ranges, subtracted, rfl⟩ := remove_eq_ok.mp removed
  have subtracts := (formed .usable).subtracts subtracted
  have own : (m.set .usable ranges).of .usable = ranges := of_set_self
  refine ⟨nextFormed, fun kind different => of_set_of_ne different, ?_, fun addr covers => ?_,
    fun splits addr covers outside => ?_⟩
  · change (m.of .usable).run _ = .ok ((m.set .usable ranges).of .usable)
    rw [own]
    exact RegionSet.run_singleton (c := .subtract entry.range) subtracted
  · rw [Covers, own] at covers
    simpa [Covers] using subtracts.within addr covers
  · have accepted : answer = .ok () := by
      simpa [resists_singleton formed removed] using splits entry
    rw [Covers, own]
    exact (subtracts.difference accepted addr).mpr ⟨covers, outside entry (List.mem_singleton_self _)⟩

theorem append (first : m.Excludes front left) (second : left.Excludes back next) :
    m.Excludes (front ++ back) next where
  formed := second.formed
  others kind different := (second.others kind different).trans (first.others kind different)
  runs := by
    rw [removals_append, RegionSet.run_append first.runs]
    exact second.runs
  usable addr covers := by
    obtain ⟨between, notSecond⟩ := second.usable addr covers
    obtain ⟨before, notFirst⟩ := first.usable addr between
    exact ⟨before, List.forall_mem_append.mpr ⟨notFirst, notSecond⟩⟩
  whole splits addr covers outside := by
    simp only [resists_append first.runs, not_or] at splits
    obtain ⟨notFirst, notSecond⟩ := List.forall_mem_append.mp outside
    have between := first.whole (fun entry => (splits entry).1) addr covers notFirst
    exact second.whole (fun entry => (splits entry).2) addr between notSecond

end Excludes

theorem exclude_cons_ok {excluded : List Range}
    (removed : m.remove .usable range = .ok (.ok (), left)) :
    exclude kind (range :: excluded) m = exclude kind excluded left := by
  rw [exclude, removed]
  rfl

theorem exclude_cons_error {excluded : List Range} {refusal : RegionsFull}
    (removed : m.remove .usable range = .ok (.error refusal, left)) :
    exclude kind (range :: excluded) m =
      Traced.report (.map (.notExcluded kind range)) >>= fun _ => exclude kind excluded left := by
  rw [exclude, removed]
  rfl

/-- A range that cannot be taken out as it should be is reported, and is out all the same. -/
theorem exclude_answers {excluded : List Range} (kind : MemoryKind) (formed : m.WellFormed)
    (words : RegionSet.Bounded excluded) :
    ∃ next, (exclude kind excluded m).Answers next ∧ m.Excludes (excluded.map fun range => ⟨range, kind⟩) next ∧
      ∀ event, event ∈ (exclude kind excluded m).events ↔
        ∃ entry, event = .map (.notExcluded entry.kind entry.range) ∧
          m.Resists (excluded.map fun range => ⟨range, kind⟩) entry := by
  induction excluded generalizing m with
  | nil => exact ⟨m, .pure m, .nil formed, by simp [exclude, Resists]⟩
  | cons range rest ih =>
      obtain ⟨word, restWords⟩ := RegionSet.bounded_cons.mp words
      obtain ⟨answer, left, removed, leftFormed⟩ := remove_exists .usable formed word
      obtain ⟨next, answers, excludes, reports⟩ := ih leftFormed restWords
      have first : m.Excludes [⟨range, kind⟩] left := .singleton formed leftFormed removed
      have resists (other : BootEntry) : m.Resists ((range :: rest).map fun range => ⟨range, kind⟩) other ↔
          (other = ⟨range, kind⟩ ∧ answer ≠ .ok ()) ∨
            left.Resists (rest.map fun range => ⟨range, kind⟩) other := by
        have single : m.Resists [⟨range, kind⟩] other ↔ other = ⟨range, kind⟩ ∧ answer ≠ .ok () :=
          resists_singleton formed removed
        rw [← single]
        exact resists_append first.runs
      refine ⟨next, ?_, first.append excludes, fun event => ?_⟩
      · cases answer with
        | ok done =>
            rw [exclude_cons_ok removed]
            exact answers
        | error refusal =>
            obtain ⟨text, written⟩ := Range.text_written word
            have line : (Traced.report (.map (.notExcluded kind range))).Answers () :=
              .report ⟨_, by rw [Event.text, MapEvent.text, written]; rfl⟩
            rw [exclude_cons_error removed]
            exact line.bind answers
      · cases answer with
        | ok done =>
            rw [exclude_cons_ok removed, reports]
            simp only [resists, ne_eq, not_true_eq_false, and_false, false_or]
        | error refusal =>
            rw [exclude_cons_error removed, Traced.events_bind (Traced.outcome_report _),
              Traced.events_report, List.singleton_append, List.mem_cons, reports]
            simp only [resists, ne_eq, reduceCtorEq, not_false_eq_true, and_true, and_or_left, exists_or,
              exists_eq_right]

theorem excludeAll_answers (kinds : List MemoryKind) (formed : m.WellFormed) :
    ∃ next, (excludeAll kinds m).Answers next ∧ m.Excludes (m.exclusions kinds) next ∧
      ∀ event, event ∈ (excludeAll kinds m).events ↔
        ∃ entry, event = .map (.notExcluded entry.kind entry.range) ∧
          m.Resists (m.exclusions kinds) entry := by
  induction kinds generalizing m with
  | nil => exact ⟨m, .pure m, .nil formed, by simp [excludeAll, exclusions, Resists]⟩
  | cons kind rest ih =>
      by_cases usable : kind = .usable
      · have none : m.exclusions (kind :: rest) = m.exclusions rest := by simp [exclusions, usable]
        rw [excludeAll, if_pos usable, none]
        exact ih formed
      · obtain ⟨left, leaving, first, early⟩ := exclude_answers kind formed (formed kind).bounded
        obtain ⟨next, answers, second, late⟩ := ih first.formed
        have some : m.exclusions (kind :: rest) =
            ((m.of kind).ranges.map fun range => ⟨range, kind⟩) ++ m.exclusions rest := by
          simp [exclusions, usable]
        -- the other kinds are still as they were when their turn comes
        rw [exclusions_congr first.others] at second late
        rw [excludeAll, if_neg usable, some]
        refine ⟨next, leaving.bind answers, first.append second, fun event => ?_⟩
        rw [Traced.events_bind leaving.outcome, List.mem_append, early, late]
        simp only [resists_append first.runs, and_or_left, exists_or]

theorem unexcluded_iff (sorts : MemoryMap.empty.Sorts entries sorted) :
    Unexcluded entries entry ↔ sorted.Resists (sorted.exclusions MemoryKind.all) entry := by
  constructor
  · rintro ⟨other, otherSorts, resists⟩
    have same (kind : MemoryKind) : other.of kind = sorted.of kind :=
      Except.ok.inj ((otherSorts kind).symm.trans (sorts kind))
    have usable : other.usable = sorted.usable := same .usable
    rwa [Resists, exclusions_congr fun kind _ => same kind, usable] at resists
  · intro resists
    exact ⟨sorted, sorts, resists⟩

/-- A warning names the kind and the range of an entry, and so the entry. -/
theorem exists_same_entry {P : BootEntry → Prop} :
    (∃ other : BootEntry, (entry.kind = other.kind ∧ entry.range = other.range) ∧ P other) ↔ P entry := by
  constructor
  · rintro ⟨⟨_, _⟩, ⟨rfl, rfl⟩, holds⟩
    exact holds
  · intro holds
    exact ⟨entry, ⟨rfl, rfl⟩, holds⟩

/-- The map comes of two stages, and what finds no room in them is what is warned of. -/
theorem ofBootEntries_answers (entries : List BootEntry)
    (words : ∀ entry ∈ entries, entry.range.base + entry.range.size < 2 ^ 64) :
    ∃ sorted m, (ofBootEntries entries).Answers m ∧ MemoryMap.empty.Entered entries sorted ∧
      sorted.Excludes (sorted.exclusions MemoryKind.all) m ∧
      Warned entries (ofBootEntries entries).events := by
  obtain ⟨sorted, classified, entered, early⟩ := classify_answers empty_formed words
  obtain ⟨m, excluded, excludes, late⟩ := excludeAll_answers MemoryKind.all entered.formed
  have total := (excludes.formed .usable).faithful.total
  have line : (Traced.report (.map (.built m.usable))).Answers () :=
    .report ⟨_, by rw [Event.text, MapEvent.text, usable, total]; rfl⟩
  have reports (event : Event) : event ∈ (ofBootEntries entries).events ↔
      (∃ entry, event = .map (.dropped entry.kind entry.range) ∧ MemoryMap.empty.Drops entries entry) ∨
      (∃ entry, event = .map (.notExcluded entry.kind entry.range) ∧
        sorted.Resists (sorted.exclusions MemoryKind.all) entry) ∨ event = .map (.built m.usable) := by
    rw [ofBootEntries, Traced.events_bind classified.outcome, Traced.events_bind excluded.outcome,
      Traced.events_bind (Traced.outcome_report _), List.mem_append, List.mem_append, early, late]
    simp
  refine ⟨sorted, m, classified.bind (excluded.bind (line.bind (.pure m))), entered, excludes,
    fun entry => ?_, fun entry => ?_⟩
  · simp [reports, exists_same_entry]
  · simp [reports, exists_same_entry, unexcluded_iff entered.sorts]

/-- Whatever the entries and their order, nothing that an entry reports as other than usable is usable,
unless the entries before it left no room for it, which is warned of. -/
theorem ofBootEntries_excludes (entries : List BootEntry)
    (words : ∀ entry ∈ entries, entry.range.base + entry.range.size < 2 ^ 64) :
    ∃ m, (ofBootEntries entries).outcome = .ok m ∧ Warned entries (ofBootEntries entries).events ∧
      ∀ entry ∈ entries, entry.kind ≠ .usable → ¬ MemoryMap.empty.Drops entries entry →
        ∀ addr, entry.range.Holds addr → ∀ r ∈ m.usable.ranges, ¬ r.Holds addr := by
  obtain ⟨sorted, m, answers, entered, excludes, warned⟩ := ofBootEntries_answers entries words
  refine ⟨m, answers.outcome, warned, fun entry member unusable room addr holds r listed inside => ?_⟩
  -- an entry with room is covered before the exclusion starts, which spares nothing that is
  obtain ⟨own, ownListed, covered⟩ := entered.covers entry member room addr holds
  have excluded : (⟨own, entry.kind⟩ : BootEntry) ∈ sorted.exclusions MemoryKind.all :=
    mem_exclusions.mpr ⟨entry.kind.mem_all, unusable, ownListed⟩
  exact (excludes.usable addr ⟨r, listed, inside⟩).2 _ excluded covered

/-- One reserved range more than there is room for, with the last one usable as well. -/
def crowded : List BootEntry :=
  (List.range 65).map (fun i => ⟨⟨i * 8192, 4096⟩, .reserved⟩) ++ [⟨⟨524288, 4096⟩, .usable⟩]

theorem crowded_words : ∀ entry ∈ crowded, entry.range.base + entry.range.size < 2 ^ 64 := by
  decide +kernel

/-- The first 64 reserved ranges are all apart from the last one. -/
theorem crowded_drops : MemoryMap.empty.Drops crowded ⟨⟨524288, 4096⟩, .reserved⟩ := by
  have full : (RegionSet.empty.run (additions (crowded.take 64) .reserved)).toOption.map (fun s =>
      decide (s.size = RegionSet.capacity ∧ ∀ r ∈ s.ranges,
        r.base + r.size < 524288 ∨ 524288 + 4096 < r.base)) = some true := by
    decide +kernel
  obtain ⟨s, computed, full⟩ := Option.map_eq_some_iff.mp full
  have shut := of_decide_eq_true full
  refine ⟨crowded.take 64, crowded.drop 65, by rfl, s, ?_, by decide, shut⟩
  rw [empty_of]
  exact toOption_eq_some.mp computed

/-- The warning is given for the range without room. -/
theorem ofBootEntries_excludes_crowded :
    (∀ entry ∈ crowded, entry.range.base + entry.range.size < 2 ^ 64) ∧
      ∃ m, (ofBootEntries crowded).outcome = .ok m ∧
        .map (.dropped .reserved ⟨524288, 4096⟩) ∈ (ofBootEntries crowded).events ∧
        ∀ entry ∈ crowded, entry.kind ≠ .usable → ¬ MemoryMap.empty.Drops crowded entry →
          ∀ addr, entry.range.Holds addr → ∀ r ∈ m.usable.ranges, ¬ r.Holds addr := by
  obtain ⟨m, built, warned, excluded⟩ := ofBootEntries_excludes crowded crowded_words
  exact ⟨crowded_words, m, built, (warned.dropped_iff _).mpr crowded_drops, excluded⟩

theorem usable_of_crowded :
    (ofBootEntries crowded).outcome.map (fun m => m.usable.ranges) = .ok [⟨524288, 4096⟩] := by
  decide +kernel

/-- The report of a range without room is no idle warning: its memory may stay usable. -/
theorem not_all_excluded :
    ¬ ∀ entries : List BootEntry, (∀ entry ∈ entries, entry.range.base + entry.range.size < 2 ^ 64) →
      ∀ m, (ofBootEntries entries).outcome = .ok m →
        ∀ entry ∈ entries, entry.kind ≠ .usable →
          ∀ addr, entry.range.Holds addr → ∀ r ∈ m.usable.ranges, ¬ r.Holds addr := by
  intro claimed
  cases built : (ofBootEntries crowded).outcome with
  | error fault => simpa [built, Except.map] using usable_of_crowded
  | ok m =>
      have usable : m.usable.ranges = [⟨524288, 4096⟩] := by
        simpa [built, Except.map] using usable_of_crowded
      have reserved : (⟨⟨524288, 4096⟩, .reserved⟩ : BootEntry) ∈ crowded := by
        apply List.mem_append_left
        exact List.mem_map.mpr ⟨64, List.mem_range.mpr (by decide), rfl⟩
      have first : Range.Holds ⟨524288, 4096⟩ 524288 := by simp [Range.Holds]
      apply claimed crowded crowded_words m built _ reserved (by decide) 524288 first ⟨524288, 4096⟩ _ first
      rw [usable]
      exact List.mem_singleton_self _

end ZonedMemory.MemoryMap
