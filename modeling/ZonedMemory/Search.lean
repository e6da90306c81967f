import ZonedMemory.Fault

namespace ZonedMemory.Search

/-!
Binary search for the point where a test turns from true to false. The test may fault, so which
entries are probed is part of the answer: each round probes the middle of the entries left over and
keeps the half that holds the turning point; the last entry left is probed at the end.
-/

def probe {α : Type} (test : α → Except Fault Bool) (entries : List α) (index : Nat) :
    Except Fault Bool :=
  match entries[index]? with
  | some entry => test entry
  | none => .error (.outOfBounds entries.length index)

/-- Narrows the `size` entries from `base` on to one and counts it if it passes. A round drops at
least one entry, so `size` rounds are enough. -/
def narrow {α : Type} (test : α → Except Fault Bool) (entries : List α) :
    (rounds size base : Nat) → Except Fault Nat
  | 0, _, base => pure base
  | rounds + 1, size, base => do
      if size > 1 then
        let half := size / 2
        let upper ← probe test entries (base + half)
        narrow test entries rounds (size - half) (if upper then base + half else base)
      else
        let passed ← probe test entries base
        return if passed then base + 1 else base

/-- The number of leading entries that pass the test, if no later one does. -/
def partitionPoint {α : Type} (test : α → Except Fault Bool) (entries : List α) :
    Except Fault Nat :=
  narrow test entries entries.length entries.length 0

end ZonedMemory.Search
