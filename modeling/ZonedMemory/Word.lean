import ZonedMemory.Fault

namespace ZonedMemory.Word

/-!
Arithmetic on 64-bit words. A word is a natural number below `2 ^ 64`; every operation that could
leave that range faults instead, so an answer is always the exact mathematical one. Only a left
shift drops bits silently, and faults for the amount alone.
-/

def add (a b : Nat) : Except Fault Nat :=
  if a + b < 1 <<< 64 then .ok (a + b) else .error .addOverflow

def sub (a b : Nat) : Except Fault Nat :=
  if b ≤ a then .ok (a - b) else .error .subOverflow

def mul (a b : Nat) : Except Fault Nat :=
  if a * b < 1 <<< 64 then .ok (a * b) else .error .mulOverflow

def shiftLeft (a amount : Nat) : Except Fault Nat :=
  if amount < 64 then .ok ((a <<< amount) % (1 <<< 64)) else .error .shiftOverflow

def div (a b : Nat) : Except Fault Nat :=
  if b = 0 then .error .divisionByZero else .ok (a / b)

def rem (a b : Nat) : Except Fault Nat :=
  if b = 0 then .error .remainderByZero else .ok (a % b)

/-- The sum of all words of a list, taken from the left. -/
def sum (words : List Nat) : Except Fault Nat :=
  words.foldlM add 0

/-- The word with every bit flipped. -/
def complement (a : Nat) : Nat := (1 <<< 64) - (a + 1)

/-- The sum of two words with the carry out of the top bit dropped. -/
def wrappingAdd (a b : Nat) : Nat := (a + b) % (1 <<< 64)

/-- The difference of two words with the borrow into the top bit dropped. -/
def wrappingSub (a b : Nat) : Nat := (a + ((1 <<< 64) - b)) % (1 <<< 64)

/-- A power of two has a single bit, which the word one below it does not share. -/
def isPowerOfTwo (a : Nat) : Bool := a != 0 && a &&& (a - 1) == 0

/-- Trailing zero bits among the lowest `bits` bits; all of them for zero. -/
def trailingZeros (a : Nat) : (bits : Nat) → Nat
  | 0 => 0
  | bits + 1 => if a % 2 = 1 then 0 else trailingZeros (a / 2) bits + 1

/-- The number of bits from the highest set one down, none for zero. -/
def bitLength (a : Nat) : Nat :=
  if a = 0 then 0 else a.log2 + 1

/-- The smallest power of two that is not below `a`, if it is a word. -/
def nextPowerOfTwo? (a : Nat) : Option Nat :=
  let power := 1 <<< bitLength (a - 1)
  if power < 1 <<< 64 then some power else none

/-- The smallest multiple of `step` that is not below `a`. -/
def nextMultiple (a step : Nat) : Except Fault Nat := do
  let rest ← rem a step
  if rest = 0 then pure a else add a (step - rest)

/-- The quotient rounded up. -/
def divUp (a step : Nat) : Nat :=
  if a % step = 0 then a / step else a / step + 1

end ZonedMemory.Word
