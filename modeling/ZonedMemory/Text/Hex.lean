namespace ZonedMemory.Text

/-!
Hexadecimal text, plain and grouped. The grouped form is the one for people: upper case, with an
underscore between groups of four digits counted from the right.
-/

/-- Lower-case hexadecimal after `0x`, without leading zeros. -/
def hex (value : Nat) : String :=
  "0x" ++ String.ofList (Nat.toDigits 16 value)

def upperDigit (value : Nat) : Char :=
  if value < 10 then Char.ofNat (48 + value) else Char.ofNat (55 + value)

/-- The number of hexadecimal digits of `value`, at least one. -/
def hexLength (value : Nat) : Nat :=
  if value = 0 then 1 else value.log2 / 4 + 1

/-- The lowest `count` hexadecimal digits of `value`, highest first, with an underscore after
every digit that a multiple of four digits follows. -/
def groupedDigits (value : Nat) : Nat → List Char
  | 0 => []
  | place + 1 =>
      let digit := upperDigit ((value >>> (place * 4)) &&& 15)
      if place ≠ 0 ∧ place % 4 = 0 then digit :: '_' :: groupedDigits value place
      else digit :: groupedDigits value place

/-- An address for people, such as `0x1_0000_0000`. -/
def groupedHex (value : Nat) : String :=
  "0x" ++ String.ofList (groupedDigits value (hexLength value))

/-- Two lower-case digits for each byte. -/
def hexBytes (bytes : List UInt8) : String :=
  String.ofList (bytes.flatMap fun byte =>
    [Nat.digitChar (byte.toNat / 16), Nat.digitChar (byte.toNat % 16)])

end ZonedMemory.Text
