import ZonedMemory.BlockState
import ZonedMemory.Bytes

namespace ZonedMemory

/-!
The record of one page. It takes eight bytes of memory: a link of four, a tag and an order of one
each, and two that say nothing. Whoever writes to these bytes changes the record.
-/

structure PageRecord where
  /-- The index of the next free block in the same list, or `PageRecord.noLink`. -/
  link : Nat
  tag : Nat
  order : Nat
  spare : Nat

namespace PageRecord

def size : Nat := 8

/-- The link that leads nowhere: the largest 32-bit number. -/
def noLink : Nat := (1 <<< 32) - 1

/-- A page inside a block, on no list. -/
def tail : PageRecord := ⟨noLink, BlockState.tail.tag, 0, 0⟩

def state (p : PageRecord) : BlockState := .ofTag p.tag p.order

def withState (p : PageRecord) (state : BlockState) : PageRecord :=
  { p with tag := state.tag, order := state.order?.getD 0 }

/-- The index of the page that the link leads to. -/
def next? (p : PageRecord) : Option Nat :=
  if p.link = noLink then none else some p.link

/-- Links the page. A link keeps 32 bits of an index. -/
def withNext (p : PageRecord) : Option Nat → PageRecord
  | none => { p with link := noLink }
  | some index => { p with link := index % (1 <<< 32) }

/-- The record as it stands in memory. -/
def toBytes (p : PageRecord) : List UInt8 :=
  Bytes.ofNumber p.link 4 ++ Bytes.ofNumber p.tag 1 ++ Bytes.ofNumber p.order 1 ++
    Bytes.ofNumber p.spare 2

/-- The record that stands in memory as the given bytes. -/
def ofBytes (bytes : List UInt8) : PageRecord where
  link := Bytes.toNumber (bytes.take 4)
  tag := Bytes.toNumber ((bytes.drop 4).take 1)
  order := Bytes.toNumber ((bytes.drop 5).take 1)
  spare := Bytes.toNumber ((bytes.drop 6).take 2)

def byte (p : PageRecord) (place : Nat) : UInt8 := p.toBytes.getD place 0

def setByte (p : PageRecord) (place : Nat) (value : UInt8) : PageRecord :=
  ofBytes (p.toBytes.set place value)

end PageRecord

end ZonedMemory
