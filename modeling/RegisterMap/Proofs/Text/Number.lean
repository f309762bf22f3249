import Mathlib.Algebra.Group.Nat.Defs
import RegisterMap.Text.Hex

/-!
Numbers read back from their digits, with zeros in front or without, and how many digits they
take.
-/

namespace RegisterMap.Text

theorem hexValue?_digitChar {d : Nat} (h : d < 16) : hexValue? d.digitChar = some d := by
  have hall : ∀ d < 16, hexValue? (Nat.digitChar d) = some d := by decide
  exact hall d h

theorem ofHexDigits?_append_digit {digits : List Char} {n d : Nat}
    (hdigits : ofHexDigits? digits = some n) (hd : d < 16) :
    ofHexDigits? (digits ++ [d.digitChar]) = some (16 * n + d) := by
  unfold ofHexDigits? at hdigits ⊢
  rw [List.foldlM_append, hdigits]
  simp [hexValue?_digitChar hd]

/-- The digits of a number are those of that number only. -/
theorem ofHexDigits?_hexDigits (n : Nat) : ofHexDigits? (hexDigits n) = some n := by
  unfold hexDigits
  induction n using Nat.base_induction 16 (by decide) with
  | single d hd =>
    rw [Nat.toDigits_of_lt_base hd]
    have hnone : ofHexDigits? [] = some 0 := rfl
    simpa using ofHexDigits?_append_digit hnone hd
  | digit n d hd hn ih =>
    rw [← Nat.toDigits_append_toDigits (by decide) hn hd, Nat.toDigits_of_lt_base hd]
    exact ofHexDigits?_append_digit ih hd

theorem ofHexDigits?_zeros_append (count : Nat) (digits : List Char) :
    ofHexDigits? (List.replicate count '0' ++ digits) = ofHexDigits? digits := by
  induction count with
  | zero => rfl
  | succ count ih =>
    have hzero : hexValue? '0' = some 0 := by decide
    rw [List.replicate_succ, List.cons_append, ofHexDigits?, List.foldlM_cons, hzero]
    exact ih

theorem ofHexDigits?_hexPadded (width n : Nat) : ofHexDigits? (hexPadded width n) = some n := by
  rw [hexPadded, ofHexDigits?_zeros_append, ofHexDigits?_hexDigits]

/-- What is not the character of a digit is in no number. -/
theorem not_mem_hexDigits {c : Char} (h : ∀ d < 16, c ≠ Nat.digitChar d) (n : Nat) :
    c ∉ hexDigits n := by
  unfold hexDigits
  induction n using Nat.base_induction 16 (by decide) with
  | single d hd =>
    rw [Nat.toDigits_of_lt_base hd, List.mem_singleton]
    exact h d hd
  | digit n d hd hn ih =>
    rw [← Nat.toDigits_append_toDigits (by decide) hn hd, Nat.toDigits_of_lt_base hd,
      List.mem_append, List.mem_singleton]
    exact not_or.2 ⟨ih, h d hd⟩

theorem isDigit_of_mem_toString (n : Nat) : ∀ c ∈ (toString n).toList, c.isDigit = true := by
  rw [Nat.toString_eq_ofList_toDigits, String.toList_ofList]
  exact fun c hc => Nat.isDigit_of_mem_toDigits (by decide) (by decide) hc

theorem not_mem_toString {c : Char} (h : c.isDigit = false) (n : Nat) :
    c ∉ (toString n).toList := by
  intro hmem
  rw [isDigit_of_mem_toString n c hmem] at h
  cases h

/-- The number of a literal such as `'h1c`. -/
def ofHexLiteral? (s : String) : Option Nat :=
  match s.toList with
  | '\'' :: 'h' :: digits => ofHexDigits? digits
  | _ => none

theorem ofHexLiteral?_hexLiteral (n : Nat) : ofHexLiteral? (hexLiteral n) = some n := by
  have hchars : (hexLiteral n).toList = '\'' :: 'h' :: hexDigits n := by
    simp [hexLiteral]
  rw [ofHexLiteral?, hchars]
  exact ofHexDigits?_hexDigits n

/-- The number of a text such as `0x1c`. -/
def ofHex? (s : String) : Option Nat :=
  match s.toList with
  | '0' :: 'x' :: digits => ofHexDigits? digits
  | _ => none

theorem ofHex?_hexPadded (width n : Nat) :
    ofHex? ("0x" ++ String.ofList (hexPadded width n)) = some n := by
  have hchars : ("0x" ++ String.ofList (hexPadded width n)).toList =
      '0' :: 'x' :: hexPadded width n := by
    simp
  rw [ofHex?, hchars]
  exact ofHexDigits?_hexPadded width n

theorem ofHex?_hex (n : Nat) : ofHex? (hex n) = some n := by
  have hchars : (hex n).toList = '0' :: 'x' :: hexDigits n := by
    simp [hex]
  rw [ofHex?, hchars]
  exact ofHexDigits?_hexDigits n

/-- The number of a decimal text. -/
def ofDecimal (s : String) : Nat := Nat.ofDigitChars 10 s.toList 0

theorem ofDecimal_toString (n : Nat) : ofDecimal (toString n) = n := by
  rw [ofDecimal, Nat.toString_eq_ofList_toDigits, String.toList_ofList,
    Nat.ofDigitChars_ten_toDigits]

/-! How many digits a number takes. -/

end RegisterMap.Text
