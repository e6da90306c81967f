import ZonedMemory.Text.Hex
import ZonedMemory.Text.Record

namespace ZonedMemory

/-!
Capabilities of memory, one bit each: what a zone offers and what a request asks for. A zone can
serve a request when the two share a bit. Bits without a name are kept and printed in hexadecimal.
-/

structure ZoneFlags where
  bits : UInt8
  deriving DecidableEq

namespace ZoneFlags

/-- Reachable by devices with 24 address lines. -/
def dma : ZoneFlags := ⟨1⟩

/-- Reachable by devices with 32 address lines. -/
def dma32 : ZoneFlags := ⟨2⟩

/-- Not mapped all the time. -/
def highmem : ZoneFlags := ⟨4⟩

/-- For all purposes. -/
def normal : ZoneFlags := ⟨8⟩

/-- Holds movable pages only. -/
def movable : ZoneFlags := ⟨16⟩

/-- Kept for the kernel itself. -/
def system : ZoneFlags := ⟨128⟩

def union (a b : ZoneFlags) : ZoneFlags := ⟨a.bits ||| b.bits⟩

def isEmpty (a : ZoneFlags) : Bool := a.bits == 0

/-- The two have a capability in common. -/
def intersects (a b : ZoneFlags) : Bool := a.bits &&& b.bits != 0

/-- All capabilities of `b` are among those of `a`. -/
def contains (a b : ZoneFlags) : Bool := a.bits &&& b.bits == b.bits

/-- The named capabilities, lowest bit first. -/
def named : List (String × ZoneFlags) :=
  [("DMA", dma), ("DMA32", dma32), ("HIGHMEM", highmem), ("NORMAL", normal), ("MOVABLE", movable),
    ("SYSTEM", system)]

/-- Every named capability. -/
def all : ZoneFlags := named.foldl (fun acc entry => acc.union entry.2) ⟨0⟩

/-- Only the named capabilities of `a`. -/
def truncate (a : ZoneFlags) : ZoneFlags := ⟨a.bits &&& all.bits⟩

/-- All bits of `a` have names. -/
def isKnown (a : ZoneFlags) : Bool := a.bits &&& ~~~all.bits == 0

/-- The number of the lowest capability bit, eight for none. -/
def lowestBit (a : ZoneFlags) : Nat :=
  ((List.range 8).find? fun bit => a.bits.toNat.testBit bit).getD 8

/-- The names of the capabilities with bars between them, unnamed bits last. -/
def describe (a : ZoneFlags) : String :=
  let names := (named.filter fun entry => a.contains entry.2).map Prod.fst
  let rest := a.bits &&& ~~~all.bits
  let unnamed := if rest != 0 then [Text.hex rest.toNat] else []
  let parts := names ++ unnamed
  Text.tagged "ZoneFlags" (if parts.isEmpty then Text.hex 0 else String.intercalate " | " parts)

end ZoneFlags

end ZonedMemory
