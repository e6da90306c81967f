import Std.Data.TreeMap
import ZonedMemory.Bytes
import ZonedMemory.Window

namespace ZonedMemory

/-!
The bytes of physical memory. Bytes that were never written are zero. An access is checked at its
first byte; numbers are stored with the lowest byte first.
-/

structure Memory where
  translator : Translator
  /-- The bytes written so far, by physical address. -/
  bytes : Std.TreeMap Nat UInt8

namespace Memory

def zeroed (translator : Translator) : Memory := ⟨translator, ∅⟩

def byte (m : Memory) (addr : Nat) : UInt8 := m.bytes.getD addr 0

def setByte (m : Memory) (addr : Nat) (value : UInt8) : Memory :=
  { m with bytes := m.bytes.insert addr value }

/-- Faults unless an address can be reached. -/
def reach (m : Memory) (addr : Nat) : Except Fault Unit := do
  let _ ← m.translator.toVirtual addr
  return ()

def bytesFrom (m : Memory) (addr length : Nat) : List UInt8 :=
  (List.range length).map fun place => m.byte (addr + place)

def setBytes (m : Memory) (addr : Nat) : List UInt8 → Memory
  | [] => m
  | value :: rest => (m.setByte addr value).setBytes (addr + 1) rest

/-- The number stored in the `width` bytes from an address on. -/
def number (m : Memory) (addr width : Nat) : Nat := Bytes.toNumber (m.bytesFrom addr width)

def setNumber (m : Memory) (addr width value : Nat) : Memory :=
  m.setBytes addr (Bytes.ofNumber value width)

def readWord (m : Memory) (addr : Nat) : Except Fault Nat := do
  m.reach addr
  return m.number addr 8

def writeWord (m : Memory) (addr value : Nat) : Except Fault Memory := do
  m.reach addr
  return m.setNumber addr 8 value

/-- Faults unless both ends of a stretch of bytes can be reached. The last byte is tried first, and
its address has to be a word. -/
def reachStretch (m : Memory) (addr length : Nat) : Except Fault Unit := do
  let last ← Word.add addr (length - 1)
  m.reach last
  m.reach addr

end Memory

end ZonedMemory
