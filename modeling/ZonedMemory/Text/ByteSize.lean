namespace ZonedMemory.Text

/-!
Byte counts for people: binary units, at most two places, cut off and never rounded up.
-/

/-- The units in growing order, each 1024 of the one before. -/
def byteUnits : List String := ["B", "KiB", "MiB", "GiB", "TiB", "PiB", "EiB"]

/-- Climbs at most `steps` units from `unit`, as long as the count fills the next one. -/
def climbUnits (bytes : Nat) : (steps unit : Nat) → Nat
  | 0, unit => unit
  | steps + 1, unit =>
      if bytes >>> (10 * (unit + 1)) > 0 then climbUnits bytes steps (unit + 1) else unit

/-- The largest unit that the count fills at least once, bytes if none. -/
def byteUnit (bytes : Nat) : Nat := climbUnits bytes 6 0

/-- Hundredths of a unit left over after the whole units, cut off. -/
def byteHundredths (bytes unit : Nat) : Nat :=
  ((bytes &&& ((1 <<< (10 * unit)) - 1)) * 100) >>> (10 * unit)

/-- The places after the point: none for zero, one if the second would be zero, else two. -/
def fractionText (hundredths : Nat) : String :=
  if hundredths = 0 then ""
  else if hundredths % 10 = 0 then "." ++ toString (hundredths / 10)
  else if hundredths < 10 then ".0" ++ toString hundredths
  else "." ++ toString hundredths

/-- A byte count with its unit, such as `1.5KiB`. -/
def byteSize (bytes : Nat) : String :=
  let unit := byteUnit bytes
  toString (bytes >>> (10 * unit)) ++ fractionText (byteHundredths bytes unit) ++
    byteUnits.getD unit ""

end ZonedMemory.Text
