import ZonedMemory.Error
import ZonedMemory.Word

namespace ZonedMemory.SizeClass

/-!
Size classes of small objects: the powers of two from `smallest` up to half a page.
-/

def smallest : Nat := 8

def largest : Nat := pageSize / 2

def count : Nat := 9

/-- The smallest class whose objects hold `size` bytes. -/
def ofSize (size : Nat) : Except Fault (Except SlabError Nat) :=
  if largest < size then
    pure (.error (.tooLarge size))
  else do
    let power := 1 <<< Word.bitLength (max size smallest - 1)
    let index ← Word.sub (Word.trailingZeros power 64) (Word.trailingZeros smallest 64)
    return .ok index

def objectSize (index : Nat) : Except Fault Nat := Word.shiftLeft smallest index

end ZonedMemory.SizeClass
