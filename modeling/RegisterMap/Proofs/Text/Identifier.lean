import Mathlib.Tactic.Common
import RegisterMap.Text.Identifier

/-!
What the names are made of that an export gives. A name that SystemVerilog takes
starts with a letter or an underscore, and goes on with letters, digits and
underscores. What a name is made usable as can only be empty or such a name. A macro
name has no lower-case letters besides.
-/

namespace RegisterMap.Identifier

/-- A letter, a digit or an underscore. -/
def isWordChar (c : Char) : Bool := c.isAlphanum || c == '_'

def isLegal (name : String) : Bool :=
  match name.toList with
  | [] => false
  | first :: rest => (first.isAlpha || first == '_') && rest.all isWordChar

/-- The front of a name with certain characters, which may be empty. -/
structure IsFront (isChar : Char → Bool) (chars : List Char) : Prop where
  forall_isChar : ∀ c ∈ chars, isChar c = true
  noDigit : ∀ c, chars.head? = some c → c.isDigit = false

variable {isChar : Char → Bool}

instance (chars : List Char) : Decidable (IsFront isChar chars) :=
  decidable_of_iff (chars.all isChar = true ∧ chars.head?.all (fun c => !c.isDigit) = true)
    ⟨fun h => ⟨List.all_eq_true.1 h.1, by simpa [Option.all_eq_true] using h.2⟩,
      fun h => ⟨List.all_eq_true.2 h.forall_isChar, by simpa [Option.all_eq_true] using h.noDigit⟩⟩

theorem isLegal_of_front {name : String} (h : IsFront isWordChar name.toList)
    (hne : name.toList ≠ []) : isLegal name = true := by
  unfold isLegal
  obtain ⟨first, rest, hchars⟩ := List.exists_cons_of_ne_nil hne
  rw [hchars] at h ⊢
  have hfirst := h.forall_isChar first List.mem_cons_self
  have hdigit := h.noDigit first rfl
  have hrest : rest.all isWordChar = true :=
    List.all_eq_true.2 fun c hc => h.forall_isChar c (List.mem_cons_of_mem first hc)
  simp only [isWordChar, Char.isAlphanum, hdigit, Bool.or_false] at hfirst
  simp [hfirst, hrest]

/-- Characters of a name behind a front give a front, if they do not start with a digit. -/
theorem IsFront.append {front back : List Char} (h : IsFront isChar front)
    (hback : IsFront isChar back) : IsFront isChar (front ++ back) where
  forall_isChar c hc := by
    rcases List.mem_append.1 hc with hc | hc
    · exact h.forall_isChar c hc
    · exact hback.forall_isChar c hc
  noDigit c hc := by
    cases front with
    | nil => exact hback.noDigit c hc
    | cons first rest => exact h.noDigit c hc

theorem isWordChar_identChar (c : Char) : isWordChar (identChar c) = true := by
  unfold identChar isWordChar
  split
  · assumption
  · decide

theorem isFront_guardDigit {chars : List Char} (hunderscore : isChar '_' = true)
    (h : ∀ c ∈ chars, isChar c = true) : IsFront isChar (guardDigit chars) := by
  cases chars with
  | nil => exact ⟨by simp [guardDigit], by simp [guardDigit]⟩
  | cons first rest =>
    cases hdigit : first.isDigit with
    | true =>
      rw [guardDigit, if_pos hdigit]
      exact ⟨List.forall_mem_cons.2 ⟨hunderscore, h⟩, by simp⟩
    | false =>
      rw [guardDigit, if_neg (by simp [hdigit])]
      exact ⟨h, by simp [hdigit]⟩

theorem guardDigit_eq_nil_iff {chars : List Char} : guardDigit chars = [] ↔ chars = [] := by
  cases chars with
  | nil => simp [guardDigit]
  | cons first rest => cases hdigit : first.isDigit <;> simp [guardDigit, hdigit]

theorem isFront_systemVerilog (name : String) :
    IsFront isWordChar (systemVerilog name).toList := by
  have hfront : IsFront isWordChar (guardDigit (name.toList.map identChar)) := by
    apply isFront_guardDigit (by decide)
    intro c hc
    obtain ⟨d, _, rfl⟩ := List.mem_map.1 hc
    exact isWordChar_identChar d
  unfold systemVerilog avoidKeyword
  split
  · rw [String.toList_append, String.toList_ofList]
    exact hfront.append (by decide)
  · rwa [String.toList_ofList]

/-! Macro names. -/

/-- An upper-case letter, a digit or an underscore. -/
def isMacroChar (c : Char) : Bool := c.isUpper || c.isDigit || c == '_'

/-- A legal name without lower-case letters. -/
def isMacro (name : String) : Bool := isLegal name && name.toList.all isMacroChar

theorem isMacro_of_front {name : String} (h : IsFront isMacroChar name.toList)
    (hne : name.toList ≠ []) : isMacro name = true := by
  have hword : ∀ c ∈ name.toList, isWordChar c = true := by
    intro c hc
    have hchar := h.forall_isChar c hc
    unfold isMacroChar at hchar
    simp only [Bool.or_eq_true] at hchar
    rcases hchar with (hupper | hdigit) | hunderscore
    · have halpha : c.isAlpha = true := Bool.or_eq_true_iff.2 (Or.inl hupper)
      simp [isWordChar, Char.isAlphanum, halpha]
    · simp [isWordChar, Char.isAlphanum, hdigit]
    · simp [isWordChar, hunderscore]
  rw [isMacro, isLegal_of_front ⟨hword, h.noDigit⟩ hne, Bool.true_and, List.all_eq_true]
  exact h.forall_isChar

theorem isLower_iff (c : Char) : c.isLower = true ↔ c.val ≥ 'a'.val ∧ c.val ≤ 'z'.val :=
  Bool.and_eq_true_iff.trans (and_congr decide_eq_true_iff decide_eq_true_iff)

theorem isUpper_iff (c : Char) : c.isUpper = true ↔ c.val ≥ 'A'.val ∧ c.val ≤ 'Z'.val :=
  decide_eq_true_iff

theorem toUpper_of_not_isLower {c : Char} (h : c.isLower = false) : c.toUpper = c := by
  have hbounds : ¬(c.val ≥ 'a'.val ∧ c.val ≤ 'z'.val) :=
    fun hbounds => absurd ((isLower_iff c).2 hbounds) (by simp [h])
  unfold Char.toUpper
  rw [dif_neg hbounds]

theorem isUpper_toUpper {c : Char} (h : c.isLower = true) : c.toUpper.isUpper = true := by
  rw [isLower_iff] at h
  unfold Char.toUpper
  rw [dif_pos h, isUpper_iff]
  simp only [ge_iff_le, UInt32.le_iff_toNat_le, UInt32.toNat_add] at h ⊢
  simp at h ⊢
  omega

theorem isMacroChar_macroChar (c : Char) : isMacroChar (macroChar c) = true := by
  unfold macroChar
  split
  case isTrue h =>
    cases hlower : c.isLower with
    | true => simp [isMacroChar, isUpper_toUpper hlower]
    | false =>
      rw [toUpper_of_not_isLower hlower]
      have hword : (c.isUpper || c.isLower || c.isDigit) = true := h
      rw [hlower, Bool.or_false] at hword
      rw [isMacroChar, hword, Bool.true_or]
  case isFalse => decide

theorem isFront_macroChars (parts : List String) : IsFront isMacroChar (macroChars parts) := by
  apply isFront_guardDigit (by decide)
  induction parts with
  | nil => simp
  | cons part rest ih =>
    have hpart : ∀ c ∈ part.toList.map macroChar, isMacroChar c = true := by
      intro c hc
      obtain ⟨d, _, rfl⟩ := List.mem_map.1 hc
      exact isMacroChar_macroChar d
    cases rest with
    | nil => simpa using hpart
    | cons next others =>
      simp only [List.map_cons, List.intercalate_cons_cons] at ih ⊢
      intro c hc
      simp only [List.append_assoc, List.mem_append, List.mem_singleton] at hc
      rcases hc with hc | rfl | hc
      · exact hpart c hc
      · decide
      · exact ih c hc

/-- Behind a macro name, which may be empty, may come what is no digit at first. -/
theorem isMacro_macroName_append (parts : List String) {back : String}
    (hback : IsFront isMacroChar back.toList) (hne : macroChars parts ≠ [] ∨ back.toList ≠ []) :
    isMacro (macroName parts ++ back) = true := by
  have hchars : (macroName parts ++ back).toList = macroChars parts ++ back.toList := by
    rw [String.toList_append, macroName, String.toList_ofList]
  apply isMacro_of_front
  · rw [hchars]
    exact (isFront_macroChars parts).append hback
  · rw [hchars, ne_eq, List.append_eq_nil_iff, not_and_or]
    exact hne

/-- Two parts are joined by an underscore at least. -/
theorem isMacro_macroName (first second : String) (rest : List String) :
    isMacro (macroName (first :: second :: rest)) = true := by
  have hne : macroChars (first :: second :: rest) ≠ [] := by
    rw [macroChars, ne_eq, guardDigit_eq_nil_iff]
    simp
  have hempty : IsFront isMacroChar "".toList := ⟨by simp, by simp⟩
  simpa using isMacro_macroName_append _ hempty (Or.inl hne)

end RegisterMap.Identifier
