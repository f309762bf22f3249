import RegisterMap.Word

/-!
Numbers in decimal digits, and whether a double can hold them. Digits are either
read exactly, or into a word and a power of ten, each of which is rounded to a
double before they are multiplied.
-/

namespace RegisterMap.Decimal

/-- A number with a digit behind it. -/
def push (n : Nat) (digit : Char) : Nat := 10 * n + (digit.toNat - '0'.toNat)

/-- The value of a row of digits. -/
def value (digits : List Char) : Nat := digits.foldl push 0

/-- Digits put behind a number for as long as it stays a word, and the digits that
are left. -/
def fillWord (n : Nat) : List Char → Nat × List Char
  | [] => (n, [])
  | c :: rest =>
    if push n c < Word.limit then fillWord (push n c) rest else (n, c :: rest)

/-- The least number that rounds to an infinite double. -/
def infiniteBound : Nat := Nat.pow 2 1024 - Nat.pow 2 970

/-- Whether digits with a power of ten behind them make a number below that
bound. -/
def isFinite (digits : Nat) : Int → Bool
  | .ofNat e => digits == 0 || (e ≤ 400 && digits * Nat.pow 10 e < infiniteBound)
  | .negSucc e => digits.log2 ≤ e || digits < infiniteBound * Nat.pow 10 (e + 1)

/-- The nearest number with fifty-three binary digits, and the one with an even last
digit if two are as near. -/
def nearest (n : Nat) : Nat :=
  let unit := Nat.pow 2 (n.log2 - 52)
  let kept := n / unit
  let dropped := n % unit
  if unit < 2 * dropped ∨ (unit = 2 * dropped ∧ kept % 2 = 1) then (kept + 1) * unit
  else kept * unit

/-- Whether a word times a power of ten is finite once the word, the power and the
product are rounded. No power of ten beyond this one rounds to a finite double. -/
def isFiniteScaled (word : Nat) : Int → Bool
  | .ofNat e => word == 0 || (e ≤ 308 && nearest word * nearest (Nat.pow 10 e) < infiniteBound)
  | .negSucc _ => true

/-- A value of an exponent, its sign optional. -/
def exponent? (cs : List Char) : Option Int :=
  let (negative, digits) : Bool × List Char :=
    match cs with
    | '-' :: rest => (true, rest)
    | '+' :: rest => (false, rest)
    | _ => (false, cs)
  if digits.isEmpty || !digits.all Char.isDigit then none
  else some (if negative then -Int.ofNat (value digits) else value digits)

end RegisterMap.Decimal
