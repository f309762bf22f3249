/-!
Hexadecimal text: lower case, without leading zeros unless a width asks for
them.
-/

namespace RegisterMap.Text

/-- The hexadecimal digits of a number. -/
def hexDigits (n : Nat) : List Char := Nat.toDigits 16 n

/-- The digits of a number, filled with zeros on the left up to a width. -/
def hexPadded (width n : Nat) : List Char :=
  List.replicate (width - (hexDigits n).length) '0' ++ hexDigits n

/-- A number with its base spelled in front, such as `0x1c`. -/
def hex (n : Nat) : String := "0x" ++ String.ofList (hexDigits n)

/-- A number as a SystemVerilog literal, such as `'h1c`. -/
def hexLiteral (n : Nat) : String := "'h" ++ String.ofList (hexDigits n)

/-- The number of bits that a number takes, none for zero. -/
def bitLength (n : Nat) : Nat := if n = 0 then 0 else n.log2 + 1

/-- As many hexadecimal digits as every offset below a size can be printed in. -/
def addressDigits (size : Nat) : Nat := max 1 ((bitLength size + 3) / 4)

/-- The byte as two hexadecimal digits. -/
def hexByte (b : UInt8) : List Char := hexPadded 2 b.toNat

/-- The value of a hexadecimal digit of either case. -/
def hexValue? (c : Char) : Option Nat :=
  if '0' ≤ c ∧ c ≤ '9' then some (c.toNat - '0'.toNat)
  else if 'a' ≤ c ∧ c ≤ 'f' then some (c.toNat - 'a'.toNat + 10)
  else if 'A' ≤ c ∧ c ≤ 'F' then some (c.toNat - 'A'.toNat + 10)
  else none

/-- The number written by hexadecimal digits, most significant first. -/
def ofHexDigits? (cs : List Char) : Option Nat :=
  cs.foldlM (fun n c => (hexValue? c).map (16 * n + ·)) 0

end RegisterMap.Text
