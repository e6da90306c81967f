import ZonedMemory.Address
import ZonedMemory.Text.ByteSize

namespace ZonedMemory

/-!
Errors that operations answer with. Each kind has a short name, a sentence for people and a text
that shows its contents; the wording of each stands here and nowhere else.
-/

/-- Why no zone table can be built. -/
inductive InitError where
  /-- The memory map holds no usable page. -/
  | noUsableMemory
  /-- Usable memory falls into more pieces than there is room for zones. -/
  | tooManyZones (count : Nat)
  /-- No piece of usable memory holds the page records. -/
  | metadataExhausted (required : Nat)
  deriving DecidableEq

inductive AllocError where
  | zeroPages
  | emptyCapability
  /-- The block or its alignment needs an order that no block has. -/
  | orderTooLarge (order : Nat)
  | outOfMemory
  deriving DecidableEq

inductive FreeError where
  | unknownAddress
  | misaligned
  /-- The page lies inside a block and is not its first. -/
  | notBlockStart
  | doubleFree
  /-- The page's record names an order that its block cannot have. -/
  | corruptOrder (order : Nat)
  deriving DecidableEq

/-- Why the slab allocator refuses a request. -/
inductive SlabError where
  | tooLarge (size : Nat)
  /-- The page carries no valid slab header. -/
  | corrupted (page : Nat)
  | notSlabObject
  | notAllocated
  | trackingFull
  /-- The page allocator refused. -/
  | page (reason : AllocError)
  deriving DecidableEq

/-- A set of ranges has no room for another range. -/
inductive RegionsFull where
  | full
  deriving DecidableEq

namespace InitError

def name : InitError → String
  | noUsableMemory => "NoUsableMemory"
  | tooManyZones _ => "TooManyZones"
  | metadataExhausted _ => "MetadataExhausted"

def message : InitError → String
  | noUsableMemory => "no usable physical memory"
  | tooManyZones count => toString count ++ " zones exceed the zone table capacity"
  | metadataExhausted required =>
      "no usable range can hold " ++ Text.byteSize required ++ " of allocator metadata"

def describe (e : InitError) : String :=
  match e with
  | noUsableMemory => e.name
  | tooManyZones count => Text.record e.name [("count", toString count)]
  | metadataExhausted required => Text.record e.name [("required", toString required)]

end InitError

namespace AllocError

def name : AllocError → String
  | zeroPages => "ZeroPages"
  | emptyCapability => "EmptyCapability"
  | orderTooLarge _ => "OrderTooLarge"
  | outOfMemory => "OutOfMemory"

def message : AllocError → String
  | zeroPages => "cannot allocate zero pages"
  | emptyCapability => "empty zone capability mask"
  | orderTooLarge order => "order " ++ toString order ++ " exceeds the largest block order"
  | outOfMemory => "out of physical memory"

def describe (e : AllocError) : String :=
  match e with
  | orderTooLarge order => Text.record e.name [("order", toString order)]
  | _ => e.name

end AllocError

namespace FreeError

def name : FreeError → String
  | unknownAddress => "UnknownAddress"
  | misaligned => "Misaligned"
  | notBlockStart => "NotBlockStart"
  | doubleFree => "DoubleFree"
  | corruptOrder _ => "CorruptOrder"

def message : FreeError → String
  | unknownAddress => "address is not managed by any zone"
  | misaligned => "address is not page aligned"
  | notBlockStart => "address is not the start of a block"
  | doubleFree => "block is already free"
  | corruptOrder order => "page metadata holds invalid order " ++ toString order

def describe (e : FreeError) : String :=
  match e with
  | corruptOrder order => Text.record e.name [("order", toString order)]
  | _ => e.name

end FreeError

namespace SlabError

def name : SlabError → String
  | tooLarge _ => "TooLarge"
  | corrupted _ => "Corrupted"
  | notSlabObject => "NotSlabObject"
  | notAllocated => "NotAllocated"
  | trackingFull => "TrackingFull"
  | page _ => "Page"

/-- A refusal of the page allocator is reported in its own words. -/
def message : SlabError → String
  | tooLarge size => toString size ++ " bytes exceeds the largest slab class"
  | corrupted addr => "slab page " ++ Text.hex addr ++ " is corrupted"
  | notSlabObject => "address is not a slab object"
  | notAllocated => "address is not allocated"
  | trackingFull => "large allocation table is full"
  | page reason => reason.message

def describe (e : SlabError) : String :=
  match e with
  | tooLarge size => Text.record e.name [("size", toString size)]
  | corrupted addr => Text.record e.name [("page", Address.describe .physical addr)]
  | page reason => Text.tagged e.name reason.describe
  | _ => e.name

end SlabError

namespace RegionsFull

def name (_ : RegionsFull) : String := "RegionsFull"

def message (_ : RegionsFull) : String := "region array is full"

end RegionsFull

end ZonedMemory
