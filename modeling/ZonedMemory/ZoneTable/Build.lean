import ZonedMemory.Buddy.Seed
import ZonedMemory.MemoryMap
import ZonedMemory.Window
import ZonedMemory.ZoneConfig
import ZonedMemory.ZoneTable.Basic

namespace ZonedMemory.ZoneTable

/-!
Building the zone table. The whole pages of usable memory are split at the two limits of the
configuration; the records of all pages are placed at the start of the smallest piece that holds
them; every piece with pages left becomes a zone.
-/

/-- The whole pages of one usable range, split at both limits. -/
def piecesOf (config : ZoneConfig) (usable : Range) : Except Fault (List Range) := do
  let (low, rest) ← (← usable.pageAligned).splitAt config.dmaLimit
  let (middle, high) ← rest.splitAt config.dma32Limit
  let pieces ← [low, middle, high].mapM Range.pageAligned
  return pieces.filter fun piece => !piece.isEmpty

/-- The pieces of all usable ranges in order. -/
def pieces (config : ZoneConfig) : List Range → Except Fault (List Range)
  | [] => pure []
  | usable :: rest => do
      let first ← piecesOf config usable
      return first ++ (← pieces config rest)

/-- The first of the smallest ranges that hold so many bytes. -/
def smallestHolding (required : Nat) (ranges : List Range) : Option Range :=
  (ranges.filter fun r => required ≤ r.size).foldl
    (fun best r =>
      match best with
      | none => some r
      | some host => if r.size < host.size then some r else best)
    none

/-- Takes so many bytes off the start of the first range that equals `host`. -/
def shrink (host : Range) (required : Nat) : List Range → Except Fault (List Range)
  | [] => pure []
  | first :: rest => do
      if first = host then
        let stop ← Range.stop ⟨host.base, required⟩
        let left ← Range.ofBounds stop (← host.stop)
        return left :: rest
      else
        return first :: (← shrink host required rest)

/-- Makes a zone of every range that is not empty, with `records` page records to hand out; says
how many bytes were `required` if they run out. -/
def zonesOver (config : ZoneConfig) (required : Nat) :
    (records index : Nat) → List Range → Traced (Except InitError (List Zone))
  | _, _, [] => return .ok []
  | records, index, range :: rest => do
      if range.isEmpty then
        zonesOver config required records index rest
      else if records < range.pageCount then
        return .error (.metadataExhausted required)
      else
        let flags := config.capabilitiesAt range.base
        let buddy ← Buddy.create range range.pageCount
        Traced.report (.zone (.built index flags range))
        match ← zonesOver config required (records - range.pageCount) (index + 1) rest with
        | .error reason => return .error reason
        | .ok zones => return .ok (Zone.ofBuddy index flags buddy :: zones)

/-- Enters where the page records are into the memory map; a map without room is reported. -/
def recordMetadata (m : MemoryMap) (metadata : Range) : Traced MemoryMap := do
  match ← m.reclassify metadata .usable .allocatorMetadata with
  | (.ok (), m) => return m
  | (.error _, m) =>
      Traced.report (.zone (.unrecorded metadata))
      return m

/-- Places the page records of the given pieces and makes the zones. -/
def buildOver (m : MemoryMap) (translator : Translator) (config : ZoneConfig)
    (ranges : List Range) : Traced (Except InitError (ZoneTable × Range) × MemoryMap) := do
  let pages ← Word.sum (ranges.map Range.pageCount)
  let required ← Word.nextMultiple (← Word.mul pages PageRecord.size) pageSize
  match smallestHolding required ranges with
  | none => return (.error (.metadataExhausted required), m)
  | some host =>
      let metadata : Range := ⟨host.base, required⟩
      let ranges ← shrink host required ranges
      Traced.report (.zone (.metadata required pages metadata))
      let m ← recordMetadata m metadata
      let _ ← translator.toVirtual metadata.base
      match ← zonesOver config required (metadata.size / PageRecord.size) 0 ranges with
      | .error reason => return (.error reason, m)
      | .ok [] => return (.error .noUsableMemory, m)
      | .ok zones => return (.ok (ZoneTable.ofZones zones, metadata), m)

/-- The zone table over the usable memory of a map, and the range of the page records, which the
map shows from then on. -/
def build (m : MemoryMap) (translator : Translator) (config : ZoneConfig) :
    Traced (Except InitError (ZoneTable × Range) × MemoryMap) := do
  let ranges ← pieces config m.usable.ranges
  if ranges.isEmpty then
    return (.error .noUsableMemory, m)
  else if capacity < ranges.length then
    return (.error (.tooManyZones ranges.length), m)
  else
    buildOver m translator config ranges

end ZonedMemory.ZoneTable
