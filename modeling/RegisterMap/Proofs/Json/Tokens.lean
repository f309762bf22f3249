import Mathlib.Data.List.TakeWhile
import Mathlib.Tactic.Common
import RegisterMap.Json.Reader
import RegisterMap.Json.Writer
import RegisterMap.Proofs.Text.Number

/-!
The tokens of a written value. A string and a word are read back from what is written for
them, and so a written value falls into the tokens that it has as a tree.
-/

namespace RegisterMap

namespace Decimal

theorem le_push (n : Nat) (c : Char) : n ≤ push n c := by
  unfold push
  omega

theorem le_foldl_push (n : Nat) (digits : List Char) : n ≤ digits.foldl push n := by
  induction digits generalizing n with
  | nil => exact Nat.le_refl n
  | cons c rest ih => exact Nat.le_trans (le_push n c) (ih (push n c))

/-- Digits that make a word are all read into it. -/
theorem fillWord_eq {n : Nat} {digits : List Char} (h : digits.foldl push n < Word.limit) :
    fillWord n digits = (digits.foldl push n, []) := by
  induction digits generalizing n with
  | nil => rfl
  | cons c rest ih =>
    rw [List.foldl_cons] at h
    have hfits : push n c < Word.limit := Nat.lt_of_le_of_lt (le_foldl_push (push n c) rest) h
    rw [fillWord, if_pos hfits, ih h, List.foldl_cons]

theorem foldl_push_toDigits (n : Nat) : (Nat.toDigits 10 n).foldl push 0 = n :=
  Nat.ofDigitChars_ten_toDigits

/-- No zero stands in front of other digits. -/
theorem head?_toDigits_ne {n : Nat} (h : 0 < n) : (Nat.toDigits 10 n).head? ≠ some '0' := by
  induction n using Nat.base_induction 10 (by decide) with
  | single d hd =>
    have hall : ∀ d < 10, 0 < d → Nat.digitChar d ≠ '0' := by decide
    rw [Nat.toDigits_of_lt_base hd]
    simpa using hall d hd h
  | digit n d hd hn ih =>
    rw [← Nat.toDigits_append_toDigits (by decide) hn hd, List.head?_append]
    obtain ⟨c, rest, hdigits⟩ := List.exists_cons_of_ne_nil (Nat.toDigits_ne_nil (n := n) (b := 10))
    rw [hdigits] at ih ⊢
    simpa using ih hn

end Decimal

namespace Json

/-! Numbers. -/

theorem ofChars?_digits {digits : List Char} (hne : digits ≠ [])
    (hall : ∀ c ∈ digits, c.isDigit = true) (hzero : digits.head? = some '0' → digits.length ≤ 1) :
    Number.ofChars? digits = some (.ofDigits digits) := by
  obtain ⟨c, rest, rfl⟩ := List.exists_cons_of_ne_nil hne
  have hsign : c ≠ '-' := by
    rintro rfl
    have hdigit := hall '-' List.mem_cons_self
    revert hdigit
    decide
  have htake : (c :: rest).takeWhile Char.isDigit = c :: rest :=
    List.takeWhile_eq_self_iff.2 hall
  have hdrop : (c :: rest).dropWhile Char.isDigit = [] := List.dropWhile_eq_nil_iff.2 hall
  have hleading :
      ¬ (((c :: rest).head? == some '0') && decide ((c :: rest).length > 1)) = true := by
    rw [Bool.and_eq_true, beq_iff_eq, decide_eq_true_eq]
    exact fun h => Nat.not_lt.2 (hzero h.1) h.2
  unfold Number.ofChars?
  split
  next negative unsigned hparts =>
    have hsigned : (negative, unsigned) = (false, c :: rest) := by
      rw [← hparts]
      split
      · next heq => exact absurd (List.cons.inj heq).1 hsign
      · rfl
    cases hsigned
    simp only [htake, hdrop]
    rw [if_neg (by simpa using hleading)]
    rfl

theorem ofChars?_toDigits {n : Nat} (h : n < Word.limit) :
    Number.ofChars? (Nat.toDigits 10 n) = some (.natural n) := by
  have hall : ∀ c ∈ Nat.toDigits 10 n, c.isDigit = true := fun c hc =>
    Nat.isDigit_of_mem_toDigits (by decide) (by decide) hc
  have hzero : (Nat.toDigits 10 n).head? = some '0' → (Nat.toDigits 10 n).length ≤ 1 := by
    intro hhead
    rcases Nat.eq_zero_or_pos n with rfl | hpos
    · decide
    · exact absurd hhead (Decimal.head?_toDigits_ne hpos)
  have hword : (Nat.toDigits 10 n).foldl Decimal.push 0 < Word.limit := by
    rwa [Decimal.foldl_push_toDigits]
  rw [ofChars?_digits Nat.toDigits_ne_nil hall hzero, Number.ofDigits, Decimal.fillWord_eq hword,
    Decimal.foldl_push_toDigits]

/-! Strings. -/

/-- Control characters are written by four digits. -/
theorem hexPadded_control {n : Nat} (h : n < 0x20) :
    Text.hexPadded 4 n = ['0', '0', (n / 16).digitChar, (n % 16).digitChar] ∧
      Text.ofHexDigits? ['0', '0', (n / 16).digitChar, (n % 16).digitChar] = some n := by
  have hall : ∀ n < 0x20,
      Text.hexPadded 4 n = ['0', '0', (n / 16).digitChar, (n % 16).digitChar] ∧
        Text.ofHexDigits? ['0', '0', (n / 16).digitChar, (n % 16).digitChar] = some n := by
    decide +kernel
  exact hall n h

theorem readString_stringChar (units : List Unit16) (c : Char) (rest : List Char) :
    readString units (stringChar c ++ rest) = readString (.char c :: units) rest := by
  unfold stringChar
  split
  · next h => subst h; simp [readString, escapedChar?]
  split
  · next h => subst h; simp [readString, escapedChar?]
  split
  · next h => subst h; simp [readString, escapedChar?]
  split
  · next h => subst h; simp [readString, escapedChar?]
  split
  · next h => subst h; simp [readString, escapedChar?]
  split
  · next h => subst h; simp [readString, escapedChar?]
  split
  · next h => subst h; simp [readString, escapedChar?]
  split
  · next hcontrol =>
    obtain ⟨hdigits, hvalue⟩ := hexPadded_control hcontrol
    have hhalf : Unit16.ofNat c.toNat = .char c := by
      unfold Unit16.ofNat
      rw [if_neg (by omega), Char.ofNat_toNat]
    rw [hdigits]
    simp [readString, hvalue, hhalf]
  · next hquote hslash _ _ _ _ _ hcontrol =>
    rw [List.singleton_append, readString, if_neg hquote, if_neg hcontrol]
    · exact fun _ _ _ _ _ heq => absurd heq hslash
    · exact fun _ _ heq => absurd heq hslash

theorem assemble_chars (cs : List Char) : assemble (cs.map Unit16.char) = some cs := by
  induction cs with
  | nil => rfl
  | cons c rest ih => rw [List.map_cons, assemble, ih, Option.map_some]

theorem readString_quoted (units : List Unit16) (cs rest : List Char) :
    readString units (cs.flatMap stringChar ++ '"' :: rest) =
      some (units.reverse ++ cs.map .char, rest) := by
  induction cs generalizing units with
  | nil => simp [readString]
  | cons c more ih =>
    rw [List.flatMap_cons, List.append_assoc, readString_stringChar, ih]
    simp

/-! Tokens. -/

variable {tokens : List Token} {rest : List Char}

theorem tokensFrom_string (s : String) :
    tokensFrom tokens ((quote s).toList ++ rest) =
      tokensFrom (.text (some s) :: tokens) rest := by
  have hchars : (quote s).toList ++ rest =
      '"' :: (s.toList.flatMap stringChar ++ '"' :: rest) := by
    simp [quote]
  have htext : textOf ([].reverse ++ s.toList.map Unit16.char) = some s := by
    rw [List.reverse_nil, List.nil_append, textOf, assemble_chars, Option.map_some,
      String.ofList_toList]
  rw [hchars, tokensFrom]
  · rw [if_neg (by decide), if_pos rfl]
    split
    · next units after hread =>
      rw [readString_quoted] at hread
      cases hread
      rw [htext]
    · next hread =>
      rw [readString_quoted] at hread
      cases hread
  all_goals simp

theorem mem_of_ofChar? {c : Char} {token : Token} (h : Token.ofChar? c = some token) :
    c ∈ ['[', ']', '\x7b', '\x7d', ',', ':'] := by
  unfold Token.ofChar? at h
  split at h
  · next hc => simp [hc]
  split at h
  · next hc => simp [hc]
  split at h
  · next hc => simp [hc]
  split at h
  · next hc => simp [hc]
  split at h
  · next hc => simp [hc]
  split at h
  · next hc => simp [hc]
  · cases h

theorem tokensFrom_punctuation {c : Char} {token : Token} (h : Token.ofChar? c = some token) :
    tokensFrom tokens (c :: rest) = tokensFrom (token :: tokens) rest := by
  have hother : isSpace c = false ∧ c ≠ '"' ∧ (c.isDigit || c == '-') = false ∧
      c ≠ 'n' ∧ c ≠ 't' ∧ c ≠ 'f' := by
    have hmem := mem_of_ofChar? h
    simp only [List.mem_cons, List.not_mem_nil, or_false] at hmem
    rcases hmem with rfl | rfl | rfl | rfl | rfl | rfl <;> decide
  obtain ⟨hspace, hquote, hdigit, hnull, htrue, hfalse⟩ := hother
  rw [tokensFrom]
  · simp [hspace, hquote, hdigit, h]
  · exact fun _ heq _ => hnull heq
  · exact fun _ heq _ => htrue heq
  · exact fun _ heq _ => hfalse heq

/-- What follows a number does not go on with it. -/
def EndsNumber (rest : List Char) : Prop := ∀ c, rest.head? = some c → isNumberChar c = false

theorem EndsNumber.takeWhile_eq_nil (h : EndsNumber rest) : rest.takeWhile isNumberChar = [] := by
  cases rest with
  | nil => rfl
  | cons c more => simp [h c rfl]

theorem EndsNumber.dropWhile_eq_self (h : EndsNumber rest) :
    rest.dropWhile isNumberChar = rest := by
  cases rest with
  | nil => rfl
  | cons c more => simp [h c rfl]

theorem tokensFrom_number {n : Nat} (h : n < Word.limit) (hrest : EndsNumber rest) :
    tokensFrom tokens ((toString n).toList ++ rest) =
      tokensFrom (.number (.natural n) :: tokens) rest := by
  have hdigits : ∀ c ∈ Nat.toDigits 10 n, c.isDigit = true := fun c hc =>
    Nat.isDigit_of_mem_toDigits (by decide) (by decide) hc
  have hread := ofChars?_toDigits h
  rw [Nat.toString_eq_ofList_toDigits, String.toList_ofList]
  obtain ⟨c, more, hcons⟩ := List.exists_cons_of_ne_nil (Nat.toDigits_ne_nil (n := n) (b := 10))
  rw [hcons] at hdigits hread ⊢
  have hc : c.isDigit = true := hdigits c List.mem_cons_self
  have hmore : ∀ d ∈ more, isNumberChar d = true := fun d hd => by
    simp [isNumberChar, hdigits d (List.mem_cons_of_mem c hd)]
  have hother (d : Char) (hd : d.isDigit = false) : c ≠ d := by
    rintro rfl
    rw [hc] at hd
    cases hd
  have hspace : isSpace c = false := by
    simp [isSpace, hother ' ' (by decide), hother '\t' (by decide), hother '\n' (by decide),
      hother '\r' (by decide)]
  rw [List.cons_append, tokensFrom]
  · rw [if_neg (by simp [hspace]), if_neg (hother '"' (by decide)), if_pos (by simp [hc]),
      List.takeWhile_append_of_pos hmore, hrest.takeWhile_eq_nil, List.append_nil, hread,
      List.dropWhile_append_of_pos hmore, hrest.dropWhile_eq_self]
  · exact fun _ heq _ => hother 'n' (by decide) heq
  · exact fun _ heq _ => hother 't' (by decide) heq
  · exact fun _ heq _ => hother 'f' (by decide) heq

end Json

end RegisterMap
