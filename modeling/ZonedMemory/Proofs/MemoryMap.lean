import ZonedMemory.MemoryMap
import ZonedMemory.Proofs.RegionSet

namespace ZonedMemory

/-!
Every map that can be built keeps the ranges of each kind in normal form.
-/

namespace MemoryKind

theorem all_index (kind : MemoryKind) : all[kind.index.val]? = some kind := by
  cases kind <;> rfl

theorem mem_all (kind : MemoryKind) : kind ∈ all := List.mem_of_getElem? kind.all_index

theorem index_inj {kind other : MemoryKind} (same : kind.index = other.index) : kind = other := by
  have shown := kind.all_index
  rw [same, other.all_index] at shown
  exact (Option.some.inj shown).symm

end MemoryKind

namespace MemoryMap

/-- The maps that entering, moving and reading in ranges can lead to, whatever was refused. -/
inductive Built : MemoryMap → Prop where
  | empty : Built MemoryMap.empty
  | ofBootEntries {entries : List BootEntry} {m : MemoryMap} :
      (MemoryMap.ofBootEntries entries).outcome = .ok m → Built m
  | insert {m next : MemoryMap} {kind : MemoryKind} {range : Range}
      {answer : Except RegionsFull Unit} :
      Built m → m.insert kind range = .ok (answer, next) → Built next
  | reclassify {m next : MemoryMap} {range : Range} {source target : MemoryKind}
      {answer : Except RegionsFull Unit} :
      Built m → m.reclassify range source target = .ok (answer, next) → Built next

def Normal (m : MemoryMap) : Prop := ∀ kind, RegionSet.Normal (m.of kind).ranges

variable {m next : MemoryMap} {kind source target : MemoryKind} {range : Range}
  {ranges : RegionSet} {answer : Except RegionsFull Unit}

theorem of_set_self : (m.set kind ranges).of kind = ranges := by
  simp only [MemoryMap.set, of, Fin.getElem_fin, Vector.getElem_set_self]

theorem of_set_of_ne {other : MemoryKind} (different : other ≠ kind) :
    (m.set kind ranges).of other = m.of other := by
  have places : kind.index.val ≠ other.index.val := fun same =>
    different (MemoryKind.index_inj (Fin.ext same).symm)
  simp only [MemoryMap.set, of, Fin.getElem_fin, Vector.getElem_set_ne _ _ places]

theorem set_of (m : MemoryMap) (kind : MemoryKind) : m.set kind (m.of kind) = m := by
  simp only [MemoryMap.set, of, Fin.getElem_fin, Vector.set_getElem_self]

theorem set_eq_ok {computed : Except Fault (Except RegionsFull Unit × RegionSet)} :
    (do let (result, ranges) ← computed; return (result, m.set kind ranges)) = .ok (answer, next) ↔
      ∃ ranges, computed = .ok (answer, ranges) ∧ next = m.set kind ranges := by
  constructor
  · intro made
    obtain ⟨⟨_, ranges⟩, rfl, made⟩ := bind_eq_ok.mp made
    obtain ⟨rfl, rfl⟩ := Prod.mk.inj (Except.ok.inj made)
    exact ⟨ranges, rfl, rfl⟩
  · rintro ⟨ranges, rfl, rfl⟩
    rfl

theorem insert_eq_ok : m.insert kind range = .ok (answer, next) ↔
    ∃ ranges, (m.of kind).add range = .ok (answer, ranges) ∧ next = m.set kind ranges := set_eq_ok

theorem remove_eq_ok : m.remove kind range = .ok (answer, next) ↔
    ∃ ranges, (m.of kind).subtract range = .ok (answer, ranges) ∧ next = m.set kind ranges := set_eq_ok

/-- The set of every kind has a property. -/
def Each (P : RegionSet → Prop) (m : MemoryMap) : Prop := ∀ kind, P (m.of kind)

theorem empty_of (kind : MemoryKind) : MemoryMap.empty.of kind = .empty := by
  simp only [MemoryMap.empty, of, Fin.getElem_fin, Vector.getElem_replicate]

variable {P : RegionSet → Prop}

theorem Each.set (each : m.Each P) (replaced : P ranges) : (m.set kind ranges).Each P := by
  intro other
  by_cases same : other = kind
  · rwa [same, of_set_self]
  · rw [of_set_of_ne same]
    exact each other

section Kept

variable (kept : RegionSet.Kept P)
include kept

theorem Each.insert (each : m.Each P) (computed : m.insert kind range = .ok (answer, next)) :
    next.Each P := by
  obtain ⟨ranges, added, rfl⟩ := insert_eq_ok.mp computed
  exact each.set (kept.add (each kind) added)

theorem Each.remove (each : m.Each P) (computed : m.remove kind range = .ok (answer, next)) :
    next.Each P := by
  obtain ⟨ranges, removed, rfl⟩ := remove_eq_ok.mp computed
  exact each.set (kept.subtract (each kind) removed)

theorem Each.reclassify (each : m.Each P)
    (computed : m.reclassify range source target = .ok (answer, next)) : next.Each P := by
  obtain ⟨⟨result, left⟩, removed, computed⟩ := bind_eq_ok.mp computed
  cases result with
  | error refusal =>
      obtain ⟨_, rfl⟩ := Prod.mk.inj (Except.ok.inj computed)
      exact each.remove kept removed
  | ok done => exact (each.remove kept removed).insert kept computed

theorem classify_each {entries : List BootEntry} (each : m.Each P)
    (computed : (classify entries m).outcome = .ok next) : next.Each P := by
  induction entries generalizing m with
  | nil =>
      obtain rfl := Except.ok.inj computed
      exact each
  | cons entry rest ih =>
      simp only [classify, Traced.outcome_bind, Traced.outcome_lift] at computed
      obtain ⟨⟨result, entered⟩, inserted, computed⟩ := bind_eq_ok.mp computed
      have still := each.insert kept inserted
      cases result with
      | ok done => exact ih still computed
      | error refusal =>
          simp only [Traced.outcome_bind, Traced.outcome_report, ok_bind] at computed
          exact ih still computed

theorem exclude_each {excluded : List Range} (each : m.Each P)
    (computed : (exclude kind excluded m).outcome = .ok next) : next.Each P := by
  induction excluded generalizing m with
  | nil =>
      obtain rfl := Except.ok.inj computed
      exact each
  | cons range rest ih =>
      simp only [exclude, Traced.outcome_bind, Traced.outcome_lift] at computed
      obtain ⟨⟨result, left⟩, removed, computed⟩ := bind_eq_ok.mp computed
      have still := each.remove kept removed
      cases result with
      | ok done => exact ih still computed
      | error refusal =>
          simp only [Traced.outcome_bind, Traced.outcome_report, ok_bind] at computed
          exact ih still computed

theorem excludeAll_each {kinds : List MemoryKind} (each : m.Each P)
    (computed : (excludeAll kinds m).outcome = .ok next) : next.Each P := by
  induction kinds generalizing m with
  | nil =>
      obtain rfl := Except.ok.inj computed
      exact each
  | cons kind rest ih =>
      unfold excludeAll at computed
      split at computed
      · exact ih each computed
      · rw [Traced.outcome_bind] at computed
        obtain ⟨left, excluded, computed⟩ := bind_eq_ok.mp computed
        exact ih (exclude_each kept each excluded) computed

/-- What the empty set has and no change of a set takes away, every set of every built map has. -/
theorem Built.each (start : P .empty) (built : m.Built) : m.Each P := by
  have fresh : MemoryMap.empty.Each P := by
    intro kind
    rwa [empty_of]
  induction built with
  | empty => exact fresh
  | ofBootEntries computed =>
      simp only [MemoryMap.ofBootEntries, Traced.outcome_bind] at computed
      obtain ⟨classified, entered, computed⟩ := bind_eq_ok.mp computed
      obtain ⟨excluded, left, computed⟩ := bind_eq_ok.mp computed
      simp only [Traced.outcome_report, ok_bind, Traced.outcome_pure] at computed
      obtain rfl := Except.ok.inj computed
      exact excludeAll_each kept (classify_each kept fresh entered) left
  | insert _ computed ih => exact ih.insert kept computed
  | reclassify _ computed ih => exact ih.reclassify kept computed

end Kept

theorem Built.normal (built : m.Built) : m.Normal := built.each RegionSet.normal_kept .nil

end MemoryMap

end ZonedMemory
