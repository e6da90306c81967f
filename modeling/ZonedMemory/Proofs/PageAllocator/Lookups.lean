import ZonedMemory.Proofs.PageAllocator.Availability

namespace ZonedMemory

/-!
What look-ups remember. A zone that is remembered is only taken after it has passed the same test as
any other, so by address the answer is always that of a full search; by capability it is some zone that
can serve the request whenever there is one, and the roomiest when the one that is remembered cannot.
-/

/-- The lowest capability that is asked for. -/
structure ZoneFlags.Lowest (flags : ZoneFlags) (bit : Fin 8) : Prop where
  asked : flags.bits.toNat.testBit bit = true
  lowest : ∀ lower < bit, flags.bits.toNat.testBit lower = false

theorem ZoneFlags.lowestBit_lowest {flags : ZoneFlags} (some : flags.isEmpty = false) :
    ∃ bit : Fin 8, flags.lowestBit = bit ∧ flags.Lowest bit := by
  have different : flags.bits.toNat ≠ 0 := by
    intro zero
    have : flags.bits = 0 := UInt8.toNat.inj zero
    simp [isEmpty, this] at some
  obtain ⟨high, set⟩ := Nat.exists_testBit_of_ne_zero different
  have small : high < 8 := by
    by_contra large
    have beyond := Nat.pow_le_pow_right (n := 2) (by decide) (Nat.le_of_not_lt large)
    rw [Nat.testBit_lt_two_pow (flags.bits.toNat_lt.trans_le beyond)] at set
    cases set
  obtain ⟨bit, first⟩ := Option.isSome_iff_exists.mp
    (List.find?_isSome.mpr ⟨high, List.mem_range.mpr small, set⟩)
  obtain ⟨asked, bound, lowest⟩ := List.find?_range_eq_some.mp first
  refine ⟨⟨bit, List.mem_range.mp bound⟩, by rw [lowestBit, first]; rfl, asked, fun lower less => ?_⟩
  simpa using lowest lower less

/-- The zone has a capability asked for and so many free pages. -/
structure Zone.Suits (z : Zone) (flags : ZoneFlags) (pages : Nat) : Prop where
  intersects : z.flags.intersects flags = true
  room : pages ≤ z.freePages

theorem Zone.qualifies_iff {z : Zone} {flags : ZoneFlags} {pages : Nat} :
    z.qualifies flags pages = true ↔ z.Suits flags pages := by
  rw [qualifies, Bool.and_eq_true, decide_eq_true_eq]
  exact ⟨fun ⟨intersects, room⟩ => ⟨intersects, room⟩, fun suits => ⟨suits.intersects, suits.room⟩⟩

namespace ZoneTable

/-- Of the zones that suit, none has more free pages, and none with as many comes first. -/
structure Leads (zones : List Zone) (flags : ZoneFlags) (pages : Nat) (z : Zone) : Prop where
  member : z ∈ zones
  suits : z.Suits flags pages
  most : ∀ other ∈ zones, other.Suits flags pages → other.freePages ≤ z.freePages
  first : ∀ other ∈ zones, other.Suits flags pages → other.freePages = z.freePages → z.index ≤ other.index

/-- What is found for so many pages with some capabilities, of which `bit` is the lowest. -/
structure Chooses (t : ZoneTable) (flags : ZoneFlags) (pages : Nat) (bit : Fin 8) (found : Option Zone) :
    Prop where
  suits : ∀ z, found = some z → z ∈ t.zones ∧ z.Suits flags pages
  finds : (∃ z ∈ t.zones, z.Suits flags pages) → ∃ z, found = some z
  remembers : ∀ z, t.remembered t.chosen[bit] = some z → z.Suits flags pages → found = some z
  leads : (∀ z, t.remembered t.chosen[bit] = some z → ¬ z.Suits flags pages) →
    ∀ z, found = some z ↔ Leads t.zones flags pages z

variable {t : ZoneTable} {zones : List Zone} {live : List Block} {z other : Zone} {flags : ZoneFlags}
  {pages : Nat} {bit : Fin 8}

namespace Serving

theorem leads_unique (serving : Serving zones live) (leads : Leads zones flags pages z)
    (also : Leads zones flags pages other) : z = other := by
  have same := Nat.le_antisymm (also.most z leads.member leads.suits)
    (leads.most other also.member also.suits)
  have place := Nat.le_antisymm (leads.first other also.member also.suits same.symm)
    (also.first z leads.member leads.suits same)
  have here := serving.index_get leads.member
  rw [place, serving.index_get also.member] at here
  exact (Option.some.inj here).symm

theorem index_le (serving : Serving zones live) : zones.Pairwise fun z other => z.index ≤ other.index := by
  refine List.pairwise_iff_getElem.mpr fun i j bound otherBound less => ?_
  rw [serving.indexed i _ (List.getElem?_eq_getElem bound),
    serving.indexed j _ (List.getElem?_eq_getElem otherBound)]
  exact Nat.le_of_lt less

/-- The first of the roomiest zones that suit leads them. -/
theorem roomiest_leads (serving : Serving zones live)
    (answer : roomiest (zones.filter (Zone.qualifies · flags pages)) = some z) :
    Leads zones flags pages z := by
  classical
  rw [roomiest_eq_argmax] at answer
  have listed := List.argmax_mem answer
  obtain ⟨member, suits⟩ := List.mem_filter.mp listed
  have qualified : ∀ other ∈ zones, other.Suits flags pages →
      other ∈ zones.filter (Zone.qualifies · flags pages) :=
    fun other member suits => List.mem_filter.mpr ⟨member, Zone.qualifies_iff.mpr suits⟩
  refine ⟨member, Zone.qualifies_iff.mp suits, fun other member suits => ?_, fun other member suits same => ?_⟩
  · exact List.le_of_mem_argmax (qualified other member suits) answer
  · exact Search.le_of_idxOf_le Zone.index (serving.index_le.filter _) listed (qualified other member suits)
      (List.index_of_argmax answer (qualified other member suits) same.ge)

theorem roomiest_exists (suiting : ∃ z ∈ zones, z.Suits flags pages) :
    ∃ z, roomiest (zones.filter (Zone.qualifies · flags pages)) = some z := by
  obtain ⟨z, member, suits⟩ := suiting
  rw [← Option.ne_none_iff_exists', roomiest_eq_argmax, Ne, List.argmax_eq_none]
  exact List.ne_nil_of_mem (List.mem_filter.mpr ⟨member, Zone.qualifies_iff.mpr suits⟩)

theorem roomiest_iff (serving : Serving zones live) :
    roomiest (zones.filter (Zone.qualifies · flags pages)) = some z ↔ Leads zones flags pages z := by
  refine ⟨serving.roomiest_leads, fun leads => ?_⟩
  obtain ⟨other, answer⟩ := roomiest_exists ⟨z, leads.member, leads.suits⟩
  rw [serving.leads_unique leads (serving.roomiest_leads answer), answer]

theorem choose_chooses (serving : Serving t.zones live) (bytes : Nat) (lowest : flags.lowestBit = bit) :
    t.Chooses flags (max (Word.divUp bytes pageSize) 1) bit (t.choose bytes flags).1 := by
  have small : flags.lowestBit < 8 := lowest ▸ bit.isLt
  have slot : t.chosen[flags.lowestBit] = t.chosen[bit] := by simp only [lowest, Fin.getElem_fin]
  rw [choose_eq t bytes small, slot]
  generalize max (Word.divUp bytes pageSize) 1 = pages
  by_cases held : ∃ z, t.remembered t.chosen[bit] = some z ∧ z.Suits flags pages
  · obtain ⟨z, recalled, suits⟩ := held
    rw [Option.filter_eq_some_iff.mpr ⟨recalled, Zone.qualifies_iff.mpr suits⟩, Option.some_or]
    refine ⟨?_, fun _ => ⟨z, rfl⟩, fun _ again _ => recalled.symm.trans again,
      fun unsuited => absurd suits (unsuited z recalled)⟩
    rintro _ ⟨⟩
    exact ⟨mem_of_remembered recalled, suits⟩
  · push Not at held
    have none : (t.remembered t.chosen[bit]).filter (Zone.qualifies · flags pages) = none :=
      Option.filter_eq_none_iff.mpr fun z recalled qualifies => held z recalled (Zone.qualifies_iff.mp qualifies)
    rw [none, Option.none_or]
    refine ⟨fun z answer => ?_, roomiest_exists, fun z recalled suits => absurd suits (held z recalled),
      fun _ z => serving.roomiest_iff⟩
    have leads := serving.roomiest_leads answer
    exact ⟨leads.member, leads.suits⟩

end Serving

end ZoneTable

namespace PageAllocator

variable {a : PageAllocator}

/-- A look-up changes nothing but what is remembered. -/
theorem Reachable.lookup {next : ZoneTable} (reachable : a.Reachable) (same : next.zones = a.zones.zones) :
    Reachable { a with zones := next } := by
  obtain ⟨zones, chosen, found⟩ := next
  obtain rfl : zones = a.zones.zones := same
  exact reachable.remember chosen found

/-- Whatever came before, an address is found in the zone that has it, and a zone is found for a request
just if one can serve it; the roomiest one if the zone that is remembered cannot. -/
theorem lookups_transparent (reachable : a.Reachable) :
    (∀ addr, ∃ found next, a.zones.find addr = .ok (found, next) ∧ next.zones = a.zones.zones ∧
      Reachable { a with zones := next } ∧ ∀ z, found = some z ↔ z ∈ a.zones.zones ∧ z.Covers addr) ∧
    ∀ (bytes : Nat) (flags : ZoneFlags), flags.isEmpty = false →
      ∃ found next bit, a.zones.choose bytes flags = (found, next) ∧ next.zones = a.zones.zones ∧
        Reachable { a with zones := next } ∧ flags.Lowest bit ∧
        a.zones.Chooses flags (max 1 ((bytes + 4095) / 4096)) bit found := by
  obtain ⟨live, sound⟩ := reachable.sound
  constructor
  · intro addr
    obtain ⟨found, next, answer, same, finds⟩ := sound.serving.find_eq addr
    exact ⟨found, next, answer, same, reachable.lookup same, finds⟩
  · intro bytes flags some
    obtain ⟨bit, lowest, least⟩ := ZoneFlags.lowestBit_lowest some
    have same := a.zones.choose_zones bytes flags
    have chooses := sound.serving.choose_chooses bytes lowest
    have rounded : Word.divUp bytes pageSize = (bytes + 4095) / 4096 := by
      apply Word.divUp_eq
      · change bytes ≤ (bytes + 4095) / 4096 * 4096
        omega
      · change (bytes + 4095) / 4096 * 4096 < bytes + 4096
        omega
    rw [rounded, Nat.max_comm] at chooses
    exact ⟨_, _, bit, rfl, same, reachable.lookup same, least, chooses⟩

theorem lookups_transparent_eight :
    ∃ a : PageAllocator, a.Reachable ∧ ZoneFlags.dma.isEmpty = false ∧
      (∃ z next, a.zones.find 20480 = .ok (some z, next) ∧ z ∈ a.zones.zones ∧ z.Covers 20480) ∧
      ∃ z next, a.zones.choose 5000 .dma = (some z, next) ∧ ZoneTable.Leads a.zones.zones .dma 2 z := by
  have computed : ((create eightPages (.directMap 0) {}).outcome.toOption.bind fun made =>
      made.1.toOption.map fun a => decide (a.zones.chosen = Vector.replicate 8 none) &&
        a.zones.zones.any fun z => decide (z.Covers 20480) && z.qualifies .dma 2) = some true := by
    decide +kernel
  obtain ⟨⟨created, next⟩, made, computed⟩ := Option.bind_eq_some_iff.mp computed
  obtain ⟨a, valid, checked⟩ := Option.map_eq_some_iff.mp computed
  obtain rfl : created = .ok a := toOption_eq_some.mp valid
  obtain ⟨fresh, serving⟩ := Bool.and_eq_true_iff.mp checked
  obtain ⟨z, member, serves⟩ := List.any_eq_true.mp serving
  obtain ⟨covers, qualifies⟩ := Bool.and_eq_true_iff.mp serves
  have reachable : a.Reachable := .create eightPages_built (toOption_eq_some.mp made)
  obtain ⟨byAddress, byCapability⟩ := lookups_transparent reachable
  refine ⟨a, reachable, rfl, ?_, ?_⟩
  · obtain ⟨found, table, answer, _, _, finds⟩ := byAddress 20480
    obtain rfl := (finds z).mpr ⟨member, of_decide_eq_true covers⟩
    exact ⟨z, table, answer, member, of_decide_eq_true covers⟩
  · obtain ⟨found, table, bit, answer, _, _, _, chooses⟩ := byCapability 5000 .dma rfl
    obtain ⟨leader, rfl⟩ := chooses.finds ⟨z, member, Zone.qualifies_iff.mp qualifies⟩
    refine ⟨leader, table, answer, (chooses.leads (fun other recalled => ?_) leader).mp rfl⟩
    rw [of_decide_eq_true fresh, Fin.getElem_fin, Vector.getElem_replicate] at recalled
    cases recalled

end PageAllocator

end ZonedMemory
