import ZonedMemory.Proofs.MemoryMap
import ZonedMemory.Proofs.ZoneTable.Lookup
import ZonedMemory.ZoneTable.Build

namespace ZonedMemory.ZoneTable

/-!
Building. The pieces of usable memory are whole pages in address order and never overlap. The page
records go to the start of one of them, which is shortened by as much, and every piece that is left
becomes a zone of just that range.
-/

structure Pieces (ranges : List Range) : Prop where
  paged : ∀ r ∈ ranges, r.Paged
  sorted : ranges.Pairwise fun r other => r.base + r.size ≤ other.base

variable {config : ZoneConfig} {usable host : Range} {ranges result : List Range}
  {required records index : Nat} {zones : List Zone}

/-- A usable range is cut at both limits, and of the three parts the whole pages are kept. -/
theorem piecesOf_eq_ok (computed : piecesOf config usable = .ok result) :
    ∃ whole low rest middle high first second third : Range,
      usable.pageAligned = .ok whole ∧ whole.splitAt config.dmaLimit = .ok (low, rest) ∧
      rest.splitAt config.dma32Limit = .ok (middle, high) ∧ low.pageAligned = .ok first ∧
      middle.pageAligned = .ok second ∧ high.pageAligned = .ok third ∧
      result = [first, second, third].filter fun piece => !piece.isEmpty := by
  obtain ⟨whole, aligned, computed⟩ := bind_eq_ok.mp computed
  obtain ⟨⟨low, rest⟩, lowSplit, computed⟩ := bind_eq_ok.mp computed
  obtain ⟨⟨middle, high⟩, highSplit, computed⟩ := bind_eq_ok.mp computed
  obtain ⟨pieces, mapped, computed⟩ := bind_eq_ok.mp computed
  obtain rfl := Except.ok.inj computed
  simp only [List.mapM_cons, List.mapM_nil, bind_eq_ok, pure_eq_ok, Except.ok.injEq] at mapped
  obtain ⟨first, firstAligned, _, ⟨second, secondAligned, _, ⟨third, thirdAligned, _, rfl, rfl⟩,
    rfl⟩, rfl⟩ := mapped
  exact ⟨whole, low, rest, middle, high, first, second, third, aligned, lowSplit, highSplit,
    firstAligned, secondAligned, thirdAligned, rfl⟩

theorem piecesOf_sound (computed : piecesOf config usable = .ok result) :
    Pieces result ∧ ∀ r ∈ result, 0 < r.size ∧ usable.base ≤ r.base ∧
      r.base + r.size ≤ usable.base + usable.size := by
  obtain ⟨whole, low, rest, middle, high, first, second, third, aligned, lowSplit, highSplit,
    firstAligned, secondAligned, thirdAligned, rfl⟩ := piecesOf_eq_ok computed
  have wholeInside := Range.pageAligned_inside aligned
  obtain ⟨lowInside, restInside, lowBefore⟩ := Range.splitAt_inside lowSplit
  obtain ⟨middleInside, highInside, middleBefore⟩ := Range.splitAt_inside highSplit
  have firstInside := Range.pageAligned_inside firstAligned
  have secondInside := Range.pageAligned_inside secondAligned
  have thirdInside := Range.pageAligned_inside thirdAligned
  have some : ∀ r ∈ [first, second, third].filter fun piece => !piece.isEmpty,
      r ∈ [first, second, third] ∧ 0 < r.size := by
    intro r member
    obtain ⟨listed, notEmpty⟩ := List.mem_filter.mp member
    simp only [Range.isEmpty, Bool.not_eq_true', beq_eq_false_iff_ne] at notEmpty
    exact ⟨listed, Nat.pos_of_ne_zero notEmpty⟩
  refine ⟨⟨fun r member => ?_, List.pairwise_filter.mpr ?_⟩, fun r member => ?_⟩
  · have listed := (some r member).1
    simp only [List.mem_cons, List.not_mem_nil, or_false] at listed
    rcases listed with rfl | rfl | rfl
    · exact Range.pageAligned_paged firstAligned
    · exact Range.pageAligned_paged secondAligned
    · exact Range.pageAligned_paged thirdAligned
  · have pair : ∀ r other : Range, r.Before other → (!r.isEmpty) = true → (!other.isEmpty) = true →
        r.base + r.size ≤ other.base := by
      intro r other before left right
      simp only [Range.isEmpty, Bool.not_eq_true', beq_eq_false_iff_ne] at left right
      unfold Range.Before at before
      omega
    simp only [List.pairwise_cons, List.mem_cons, List.not_mem_nil, or_false, forall_eq_or_imp,
      forall_eq, false_implies, implies_true, List.Pairwise.nil, and_true]
    refine ⟨⟨pair _ _ ?_, pair _ _ ?_⟩, pair _ _ ?_⟩
    · exact lowBefore.of_inside firstInside (secondInside.trans middleInside)
    · exact lowBefore.of_inside firstInside (thirdInside.trans highInside)
    · exact middleBefore.of_inside secondInside thirdInside
  · obtain ⟨listed, positive⟩ := some r member
    have inside : r.Inside usable := by
      simp only [List.mem_cons, List.not_mem_nil, or_false] at listed
      rcases listed with rfl | rfl | rfl
      · exact firstInside.trans (lowInside.trans wholeInside)
      · exact secondInside.trans (middleInside.trans (restInside.trans wholeInside))
      · exact thirdInside.trans (highInside.trans (restInside.trans wholeInside))
    unfold Range.Inside at inside
    exact ⟨positive, by omega, by omega⟩

theorem pieces_sound {usables : List Range} (normal : RegionSet.Normal usables)
    (computed : pieces config usables = .ok result) :
    Pieces result ∧ ∀ r ∈ result, 0 < r.size ∧ ∃ usable ∈ usables, usable.base ≤ r.base ∧
      r.base + r.size ≤ usable.base + usable.size := by
  induction usables generalizing result with
  | nil =>
      obtain rfl := Except.ok.inj computed
      exact ⟨⟨by simp, .nil⟩, by simp⟩
  | cons usable rest ih =>
      obtain ⟨_, after, restNormal⟩ := RegionSet.normal_cons.mp normal
      obtain ⟨here, cut, computed⟩ := bind_eq_ok.mp computed
      obtain ⟨later, recursed, computed⟩ := bind_eq_ok.mp computed
      obtain rfl := Except.ok.inj computed
      obtain ⟨herePieces, hereInside⟩ := piecesOf_sound cut
      obtain ⟨laterPieces, laterInside⟩ := ih restNormal recursed
      refine ⟨⟨fun r member => ?_, List.pairwise_append.mpr ⟨herePieces.sorted, laterPieces.sorted, ?_⟩⟩,
        fun r member => ?_⟩
      · rcases List.mem_append.mp member with member | member
        · exact herePieces.paged r member
        · exact laterPieces.paged r member
      · intro r inHere other inLater
        obtain ⟨_, _, upper⟩ := hereInside r inHere
        obtain ⟨_, further, member, lower, _⟩ := laterInside other inLater
        have := after further member
        omega
      · rcases List.mem_append.mp member with member | member
        · obtain ⟨positive, lower, upper⟩ := hereInside r member
          exact ⟨positive, usable, by simp, lower, upper⟩
        · obtain ⟨positive, further, listed, bounds⟩ := laterInside r member
          exact ⟨positive, further, by simp [listed], bounds⟩

theorem smallestHolding_eq_argmin (required : Nat) (ranges : List Range) :
    smallestHolding required ranges = (ranges.filter fun r => required ≤ r.size).argmin Range.size := by
  unfold smallestHolding List.argmin
  congr 1
  funext best r
  cases best <;> rfl

theorem smallestHolding_mem (answer : smallestHolding required ranges = some host) :
    host ∈ ranges ∧ required ≤ host.size := by
  rw [smallestHolding_eq_argmin] at answer
  simpa using List.argmin_mem answer

/-- Shrinking changes one range of the list, and that one at its start. -/
theorem shrink_eq_ok (member : host ∈ ranges) (computed : shrink host required ranges = .ok result) :
    ∃ front back, ranges = front ++ host :: back ∧
      result = front ++ ⟨host.base + required, host.size - required⟩ :: back := by
  induction ranges generalizing result with
  | nil => cases member
  | cons first rest ih =>
      unfold shrink at computed
      split at computed
      · rename_i same
        subst same
        obtain ⟨start, sum, computed⟩ := bind_eq_ok.mp computed
        obtain ⟨_, rfl⟩ := Word.add_eq_ok.mp sum
        obtain ⟨stop, sum, computed⟩ := bind_eq_ok.mp computed
        obtain ⟨_, rfl⟩ := Word.add_eq_ok.mp sum
        obtain ⟨left, bounds, computed⟩ := bind_eq_ok.mp computed
        obtain ⟨_, rfl⟩ := Range.ofBounds_eq_ok.mp bounds
        obtain rfl := Except.ok.inj computed
        exact ⟨[], rest, rfl, by rw [Nat.add_sub_add_left]; rfl⟩
      · rename_i different
        have later : host ∈ rest := (List.mem_cons.mp member).resolve_left (Ne.symm different)
        obtain ⟨left, recursed, computed⟩ := bind_eq_ok.mp computed
        obtain rfl := Except.ok.inj computed
        obtain ⟨front, back, rfl, rfl⟩ := ih later recursed
        exact ⟨first :: front, back, rfl, rfl⟩

/-- Shortening a piece at its start frees the bytes there of every piece. -/
theorem shrink_sound (whole : Pieces ranges) (member : host ∈ ranges) (fits : required ≤ host.size)
    (paged : pageSize ∣ required) (computed : shrink host required ranges = .ok result) :
    Pieces result ∧ ∀ r ∈ result, host.base + required ≤ r.base ∨ r.base + r.size ≤ host.base := by
  obtain ⟨front, back, rfl, rfl⟩ := shrink_eq_ok member computed
  have own := whole.paged host member
  have left : (⟨host.base + required, host.size - required⟩ : Range).Paged :=
    ⟨Nat.dvd_add own.1 paged, Nat.dvd_sub own.2 paged⟩
  obtain ⟨frontSorted, hostSorted, before⟩ := List.pairwise_append.mp whole.sorted
  obtain ⟨after, backSorted⟩ := List.pairwise_cons.mp hostSorted
  refine ⟨⟨fun r listed => ?_, List.pairwise_append.mpr ⟨frontSorted,
    List.pairwise_cons.mpr ⟨fun r listed => ?_, backSorted⟩, fun r listed other otherListed => ?_⟩⟩,
    fun r listed => ?_⟩
  · rcases List.mem_append.mp listed with inFront | listed
    · exact whole.paged r (by simp [inFront])
    · rcases List.mem_cons.mp listed with rfl | inBack
      · exact left
      · exact whole.paged r (by simp [inBack])
  · have := after r listed
    simp only
    omega
  · rcases List.mem_cons.mp otherListed with rfl | inBack
    · have := before r listed host (by simp)
      simp only
      omega
    · exact before r listed other (by simp [inBack])
  · rcases List.mem_append.mp listed with inFront | listed
    · exact .inr (before r inFront host (by simp))
    · rcases List.mem_cons.mp listed with rfl | inBack
      · exact .inl (Nat.le_refl _)
      · have := after r inBack
        exact .inl (by omega)

/-- A zone made of a range of whole pages has just that range, all of it free. -/
theorem ofBuddy_sound {buddy : Buddy} {flags : ZoneFlags} (paged : host.Paged)
    (created : Buddy.create host records = .ok buddy) :
    (Zone.ofBuddy index flags buddy).range = host ∧ (Zone.ofBuddy index flags buddy).Sound [] ∧
      (Zone.ofBuddy index flags buddy).totalPages = host.pageCount := by
  have accepted := Buddy.create_ok_iff.mp ⟨buddy, created⟩
  obtain ⟨same, answer, settled, range⟩ := Buddy.create_settled accepted
  obtain rfl := Except.ok.inj (created.symm.trans answer)
  rw [paged.whole] at range
  refine ⟨range, ⟨settled, rfl, rfl, rfl⟩, ?_⟩
  obtain ⟨⟨chains, layout⟩, _⟩ := settled
  have size := layout.placed.size
  rw [range] at size
  exact (Nat.div_eq_of_eq_mul_left pageSize_pos size).symm

-- comparing the two sides must not unfold the page size, which Lean would count out
attribute [local irreducible] pageSize in
theorem zonesOver_cons (config : ZoneConfig) (required records index : Nat) (range : Range)
    (rest : List Range) :
    zonesOver config required records index (range :: rest) =
      if range.isEmpty then
        zonesOver config required records index rest
      else if records < range.pageCount then
        return .error (.metadataExhausted required)
      else do
        let flags := config.capabilitiesAt range.base
        let buddy ← Buddy.create range range.pageCount
        Traced.report (.zone (.built index flags range))
        match ← zonesOver config required (records - range.pageCount) (index + 1) rest with
        | .error reason => return .error reason
        | .ok zones => return .ok (Zone.ofBuddy index flags buddy :: zones) := rfl

/-- The zones are the pieces that are not empty, numbered in order. -/
theorem zonesOver_sound (paged : ∀ r ∈ ranges, r.Paged)
    (computed : (zonesOver config required records index ranges).outcome = .ok (.ok zones)) :
    zones.map Zone.range = (ranges.filter fun r => !r.isEmpty) ∧
      (∀ (place : Nat) (z : Zone), zones[place]? = some z → z.index = index + place) ∧
      (∀ z ∈ zones, z.Sound [] ∧ z.flags = config.capabilitiesAt z.range.base ∧ z.stats = {}) ∧
      (zones.map Zone.totalPages).sum ≤ records := by
  induction ranges generalizing records index zones with
  | nil =>
      obtain rfl := Except.ok.inj (Except.ok.inj computed)
      simp
  | cons range rest ih =>
      have restPaged : ∀ r ∈ rest, r.Paged := fun r member => paged r (by simp [member])
      rw [zonesOver_cons] at computed
      split at computed
      · rename_i empty
        rw [List.filter_cons_of_neg (by simpa using empty)]
        exact ih restPaged computed
      · rename_i some
        split at computed
        · cases Except.ok.inj computed
        · rename_i enough
          simp only [Traced.outcome_bind, Traced.outcome_lift, Traced.outcome_report, ok_bind] at computed
          obtain ⟨buddy, created, computed⟩ := bind_eq_ok.mp computed
          obtain ⟨others, recursed, computed⟩ := bind_eq_ok.mp computed
          cases others with
          | error reason => cases Except.ok.inj computed
          | ok others =>
              obtain rfl := Except.ok.inj (Except.ok.inj computed)
              obtain ⟨ranges, places, sound, pages⟩ := ih restPaged recursed
              obtain ⟨ownRange, own, ownPages⟩ := ofBuddy_sound (paged range (by simp)) created
              rw [List.filter_cons_of_pos (by simpa using some)]
              refine ⟨by rw [List.map_cons, ownRange, ranges], fun place z found => ?_,
                fun z member => ?_, ?_⟩
              · cases place with
                | zero =>
                    obtain rfl := Option.some.inj found
                    rfl
                | succ place =>
                    have := places place z found
                    omega
              · rcases List.mem_cons.mp member with rfl | member
                · exact ⟨own, by rw [ownRange]; rfl, rfl⟩
                · exact sound z member
              · rw [List.map_cons, List.sum_cons, ownPages]
                omega

structure Housed (zones : List Zone) (metadata : Range) : Prop where
  clear : ∀ z ∈ zones, metadata.base + metadata.size ≤ z.range.base ∨
    z.range.base + z.range.size ≤ metadata.base
  records : (zones.map Zone.totalPages).sum * PageRecord.size ≤ metadata.size

variable {m next : MemoryMap} {translator : Translator} {table : ZoneTable} {metadata : Range}

/-- A zone is made of a piece that is not empty. -/
theorem range_mem_of_zone {z : Zone} (same : zones.map Zone.range = ranges.filter fun r => !r.isEmpty)
    (listed : z ∈ zones) : z.range ∈ ranges ∧ 0 < z.range.size := by
  have mapped := List.mem_map_of_mem (f := Zone.range) listed
  rw [same] at mapped
  obtain ⟨kept, some⟩ := List.mem_filter.mp mapped
  simp only [Range.isEmpty, Bool.not_eq_true', beq_eq_false_iff_ne] at some
  exact ⟨kept, Nat.pos_of_ne_zero some⟩

/-- Zones over pieces serve no blocks and keep clear of a range that the pieces keep clear of. -/
theorem Serving.ofPieces (whole : Pieces ranges)
    (same : zones.map Zone.range = ranges.filter fun r => !r.isEmpty)
    (places : ∀ (place : Nat) (z : Zone), zones[place]? = some z → z.index = 0 + place)
    (sound : ∀ z ∈ zones, z.Sound []) : Serving zones [] := by
  refine ⟨fun place z found => (places place z found).trans (Nat.zero_add _), ?_, sound, by simp, .nil⟩
  have sorted := whole.sorted.filter fun r => !r.isEmpty
  rw [← same, List.pairwise_map] at sorted
  exact sorted

/-- Where the page records went, what the zones were made of, and what was reported. -/
theorem buildOver_eq_ok
    (computed : (buildOver m translator config ranges).outcome = .ok (.ok (table, metadata), next)) :
    ∃ host left,
      metadata = ⟨host.base,
        ((ranges.map Range.pageCount).sum * PageRecord.size + pageSize - 1) / pageSize * pageSize⟩ ∧
      smallestHolding metadata.size ranges = some host ∧
      shrink host metadata.size ranges = .ok left ∧
      (zonesOver config metadata.size (metadata.size / PageRecord.size) 0 left).outcome =
        .ok (.ok table.zones) ∧
      table.zones ≠ [] ∧ (recordMetadata m metadata).outcome = .ok next ∧
      (buildOver m translator config ranges).events =
        .zone (.metadata metadata.size (ranges.map Range.pageCount).sum metadata) ::
          ((recordMetadata m metadata).events ++
            (zonesOver config metadata.size (metadata.size / PageRecord.size) 0 left).events) := by
  unfold buildOver at computed ⊢
  obtain ⟨pages, counted, computed⟩ := Traced.bind_eq_ok.mp computed
  obtain ⟨bytes, scaled, computed⟩ := Traced.bind_eq_ok.mp computed
  obtain ⟨required, rounded, computed⟩ := Traced.bind_eq_ok.mp computed
  rw [Traced.events_bind counted, Traced.events_bind scaled, Traced.events_bind rounded]
  rw [Traced.outcome_lift] at counted scaled rounded
  obtain ⟨_, rfl⟩ := Word.sum_eq_ok.mp counted
  obtain ⟨_, rfl⟩ := Word.mul_eq_ok.mp scaled
  obtain rfl := Word.nextMultiple_eq rounded
  generalize ((ranges.map Range.pageCount).sum * PageRecord.size + pageSize - 1) / pageSize *
    pageSize = required at *
  cases chosen : smallestHolding required ranges with
  | none =>
      simp only [chosen, Traced.outcome_pure] at computed
      cases (Prod.mk.inj (Except.ok.inj computed)).1
  | some host =>
      simp only [chosen] at computed ⊢
      obtain ⟨left, shrunk, computed⟩ := Traced.bind_eq_ok.mp computed
      obtain ⟨_, reported, computed⟩ := Traced.bind_eq_ok.mp computed
      obtain ⟨recorded, recording, computed⟩ := Traced.bind_eq_ok.mp computed
      obtain ⟨pointer, pointed, computed⟩ := Traced.bind_eq_ok.mp computed
      obtain ⟨answer, made, computed⟩ := Traced.bind_eq_ok.mp computed
      rw [Traced.events_bind shrunk, Traced.events_bind reported, Traced.events_bind recording,
        Traced.events_bind pointed, Traced.events_bind made]
      cases answer with
      | error reason => cases (Prod.mk.inj (Except.ok.inj computed)).1
      | ok zones =>
          cases zones with
          | nil => cases (Prod.mk.inj (Except.ok.inj computed)).1
          | cons first rest =>
              obtain ⟨answered, rfl⟩ := Prod.mk.inj (Except.ok.inj computed)
              obtain ⟨rfl, rfl⟩ := Prod.mk.inj (Except.ok.inj answered)
              refine ⟨host, left, rfl, chosen, shrunk, made, List.cons_ne_nil _ _, recording, ?_⟩
              simp only [Traced.events_lift, Traced.events_report, Traced.events_pure, List.nil_append,
                List.append_nil, List.singleton_append]

theorem buildOver_sound (whole : Pieces ranges)
    (computed : (buildOver m translator config ranges).outcome = .ok (.ok (table, metadata), next)) :
    Serving table.zones [] ∧ Housed table.zones metadata ∧ ∀ z ∈ table.zones, z.stats = {} := by
  obtain ⟨host, left, placed, chosen, shrunk, made, _⟩ := buildOver_eq_ok computed
  obtain ⟨member, fits⟩ := smallestHolding_mem chosen
  have paged : pageSize ∣ metadata.size := by
    rw [placed]
    exact Nat.dvd_mul_left _ _
  obtain ⟨leftPieces, clear⟩ := shrink_sound whole member fits paged shrunk
  obtain ⟨same, places, sound, pages⟩ := zonesOver_sound leftPieces.paged made
  refine ⟨Serving.ofPieces leftPieces same places fun z listed => (sound z listed).1, ⟨fun z listed => ?_,
    (Nat.le_div_iff_mul_le (by decide)).mp pages⟩, fun z listed => (sound z listed).2.2⟩
  have base : metadata.base = host.base := by rw [placed]
  rw [base]
  exact clear z.range (range_mem_of_zone same listed).1

/-- A table that was built was built over pieces of the usable memory. -/
theorem build_eq_ok (computed : (build m translator config).outcome = .ok (.ok (table, metadata), next)) :
    ∃ ranges, pieces config m.usable.ranges = .ok ranges ∧
      (buildOver m translator config ranges).outcome = .ok (.ok (table, metadata), next) ∧
      (build m translator config).events = (buildOver m translator config ranges).events := by
  unfold build at computed ⊢
  obtain ⟨ranges, split, computed⟩ := Traced.bind_eq_ok.mp computed
  rw [Traced.events_bind split]
  refine ⟨ranges, split, ?_⟩
  split at computed
  · cases (Prod.mk.inj (Except.ok.inj computed)).1
  · rename_i some
    split at computed
    · cases (Prod.mk.inj (Except.ok.inj computed)).1
    · rename_i fits
      rw [if_neg some, if_neg fits]
      exact ⟨computed, rfl⟩

/-- A table over a built map serves no blocks yet, keeps clear of the page records and has counted
nothing. -/
theorem build_sound (built : m.Built)
    (computed : (build m translator config).outcome = .ok (.ok (table, metadata), next)) :
    Serving table.zones [] ∧ Housed table.zones metadata ∧ ∀ z ∈ table.zones, z.stats = {} := by
  obtain ⟨ranges, split, laid, _⟩ := build_eq_ok computed
  exact buildOver_sound (pieces_sound (built.normal .usable) split).1 laid

end ZonedMemory.ZoneTable
