/-!
Addresses, sizes and counts are words of 64 bits, and widths are words of 32.
A sum or product that leaves its word has no value, so arithmetic on words is
partial: every operation here answers `none` exactly when the exact result
does not fit.
-/

namespace RegisterMap.Word

/-- One more than the largest 64-bit word. -/
def limit : Nat := 18446744073709551616

/-- One more than the largest 32-bit word. -/
def narrowLimit : Nat := 4294967296

/-- The largest 64-bit word. -/
def greatest : Nat := limit - 1

/-- The bytes of a word. -/
def bytes : Nat := 8

/-- A list of words has fewer of them than this: its size in bytes is a word of
the lower half. -/
def listLimit : Nat := limit / 2 / bytes

/-- An exact result as a word, if it is one. -/
def ofNat? (n : Nat) : Option Nat :=
  if n < limit then some n else none

def add? (a b : Nat) : Option Nat := ofNat? (a + b)

def mul? (a b : Nat) : Option Nat := ofNat? (a * b)

/-- The product of a list, taken from the left, each partial product a word. -/
def product? (factors : List Nat) : Option Nat :=
  factors.foldlM mul? 1

/-- A word cut down to the largest narrow word. -/
def saturate (n : Nat) : Nat := min n (narrowLimit - 1)

theorem ofNat?_eq_some_iff {n m : Nat} : ofNat? n = some m ↔ n = m ∧ n < limit := by
  unfold ofNat?
  split <;> grind

theorem isSome_ofNat?_iff {n : Nat} : (ofNat? n).isSome = true ↔ n < limit := by
  simp [ofNat?, apply_ite Option.isSome]

theorem add?_eq_some_iff {a b c : Nat} : add? a b = some c ↔ a + b = c ∧ a + b < limit :=
  ofNat?_eq_some_iff

theorem mul?_eq_some_iff {a b c : Nat} : mul? a b = some c ↔ a * b = c ∧ a * b < limit :=
  ofNat?_eq_some_iff

end RegisterMap.Word
