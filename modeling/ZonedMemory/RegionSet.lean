import ZonedMemory.Error
import ZonedMemory.Range
import ZonedMemory.Search

namespace ZonedMemory

/-!
A set of addresses kept as a sorted list of at most `RegionSet.capacity` ranges with gaps between
them. A change that would need more ranges is refused.
-/

/-- The ranges of the set in address order. -/
structure RegionSet where
  ranges : List Range

namespace RegionSet

/-- The most ranges that a set can hold. -/
def capacity : Nat := 64

def empty : RegionSet := ⟨[]⟩

def size (s : RegionSet) : Nat := s.ranges.length

def isEmpty (s : RegionSet) : Bool := s.ranges.isEmpty

def isFull (s : RegionSet) : Bool := decide (capacity ≤ s.size)

/-- The sum of the sizes of all ranges. -/
def totalSize (s : RegionSet) : Except Fault Nat := Word.sum (s.ranges.map Range.size)

/-- The range that holds an address. -/
def find? (s : RegionSet) (addr : Nat) : Except Fault (Option Range) := do
  let index ← Search.partitionPoint (fun r => do return decide ((← r.stop) ≤ addr)) s.ranges
  match s.ranges[index]? with
  | none => return none
  | some r => return if ← r.contains addr then some r else none

/-- Puts a range into its place among sorted ranges, swallowing all that it overlaps or touches. -/
def absorb (added : Range) : List Range → Except Fault (List Range)
  | [] => pure [added]
  | first :: rest => do
      if (← first.stop) < added.base then
        return first :: (← absorb added rest)
      else if (← added.stop) < first.base then
        return added :: first :: rest
      else
        absorb (← added.merge first) rest

/-- Adds the bytes of a range. The set stays as it is when it is full and no range in it meets the
added one. -/
def add (s : RegionSet) (added : Range) : Except Fault (Except RegionsFull Unit × RegionSet) := do
  if added.isEmpty then
    return (.ok (), s)
  else
    let ranges ← absorb added s.ranges
    if capacity < ranges.length then
      return (.error .full, s)
    else
      return (.ok (), ⟨ranges⟩)

/-- Takes the bytes of a range out of sorted ranges, `count` of them in the whole set so far. What
sticks out below and above a cut range stays. When both parts stay in a full set the upper one is
lost and the cutting ends there. -/
def cut (removed : Range) (count : Nat) :
    List Range → Except Fault (Except RegionsFull Unit × List Range)
  | [] => pure (.ok (), [])
  | first :: rest => do
      if ← first.overlaps removed then
        let below ←
          if first.base < removed.base then
            pure [← Range.ofBounds first.base removed.base]
          else
            pure []
        let firstStop ← first.stop
        let removedStop ← removed.stop
        if removedStop < firstStop then
          let above ← Range.ofBounds removedStop firstStop
          if capacity ≤ count - 1 + below.length then
            return (.error .full, below ++ rest)
          else
            let (result, left) ← cut removed (count + below.length) rest
            return (result, below ++ above :: left)
        else
          let (result, left) ← cut removed (count - 1 + below.length) rest
          return (result, below ++ left)
      else
        let (result, left) ← cut removed count rest
        return (result, first :: left)

/-- Removes the bytes of a range, trimming or splitting the ranges that it meets. -/
def subtract (s : RegionSet) (removed : Range) :
    Except Fault (Except RegionsFull Unit × RegionSet) := do
  if removed.isEmpty then
    return (.ok (), s)
  else
    let (result, ranges) ← cut removed s.size s.ranges
    return (result, ⟨ranges⟩)

end RegionSet

end ZonedMemory
