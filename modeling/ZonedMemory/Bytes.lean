namespace ZonedMemory.Bytes

/-!
Numbers as bytes, the lowest byte first. A width cuts off what does not fit.
-/

def toNumber : List UInt8 → Nat
  | [] => 0
  | low :: rest => low.toNat + 256 * toNumber rest

/-- The lowest `width` bytes of a number. -/
def ofNumber (value : Nat) : (width : Nat) → List UInt8
  | 0 => []
  | width + 1 => UInt8.ofNat (value % 256) :: ofNumber (value / 256) width

end ZonedMemory.Bytes
