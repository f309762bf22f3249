import Mathlib.Data.List.Nodup
import RegisterMap.Proofs.Text.Identifier

/-!
How names come to be shared when keywords step aside. A legal name that is no keyword
stays as it is, and so does a keyword with an underscore behind it: where both are
among some names, they become one.
-/

namespace RegisterMap.Identifier

/-- A keyword and the name that it steps aside to. -/
def HasKeywordPair (names : List String) : Prop := ∃ k ∈ keywords, k ∈ names ∧ k ++ "_" ∈ names

instance (names : List String) : Decidable (HasKeywordPair names) :=
  inferInstanceAs (Decidable (∃ k ∈ keywords, k ∈ names ∧ k ++ "_" ∈ names))

theorem append_underscore_not_mem_keywords (name : String) : name ++ "_" ∉ keywords := by
  have hlast : ∀ k ∈ keywords, k.toList.getLast? ≠ some '_' := by decide
  intro hmem
  exact hlast _ hmem (by simp)

/-- No name is made a keyword. -/
theorem systemVerilog_not_mem_keywords (name : String) : systemVerilog name ∉ keywords := by
  unfold systemVerilog avoidKeyword
  split
  · exact append_underscore_not_mem_keywords _
  case isFalse h => simpa using h

theorem isDigit_of_isAlpha {c : Char} (h : c.isAlpha = true) : c.isDigit = false := by
  have hletter : c.isUpper = true ∨ c.isLower = true := Bool.or_eq_true_iff.1 h
  rw [isUpper_iff, isLower_iff] at hletter
  simp only [Char.isDigit, ge_iff_le, Bool.and_eq_false_iff, decide_eq_false_iff_not,
    UInt32.le_iff_toNat_le] at hletter ⊢
  simp at hletter ⊢
  omega

theorem isFront_of_isLegal {name : String} (h : isLegal name = true) :
    IsFront isWordChar name.toList := by
  unfold isLegal at h
  cases hchars : name.toList with
  | nil => exact ⟨by simp, by simp⟩
  | cons first rest =>
    simp only [hchars, Bool.and_eq_true, Bool.or_eq_true, beq_iff_eq, List.all_eq_true] at h
    obtain ⟨hfirst, hrest⟩ := h
    constructor
    · refine List.forall_mem_cons.2 ⟨?_, hrest⟩
      rcases hfirst with halpha | rfl
      · simp [isWordChar, Char.isAlphanum, halpha]
      · decide
    · rintro _ ⟨⟩
      rcases hfirst with halpha | rfl
      · exact isDigit_of_isAlpha halpha
      · decide

/-- A legal name is kept, unless it is a keyword. -/
theorem systemVerilog_of_isLegal {name : String} (h : isLegal name = true) :
    systemVerilog name = avoidKeyword name := by
  have hfront := isFront_of_isLegal h
  have hmap : name.toList.map identChar = name.toList := by
    refine (List.map_congr_left fun c hc => ?_).trans (List.map_id _)
    have hword : (c.isAlphanum || c == '_') = true := hfront.forall_isChar c hc
    rw [identChar, if_pos hword, id]
  have hguard : guardDigit name.toList = name.toList := by
    cases hchars : name.toList with
    | nil => rfl
    | cons first rest =>
      have hdigit := hfront.noDigit first (by simp [hchars])
      rw [guardDigit, if_neg (by simp [hdigit])]
  rw [systemVerilog, hmap, hguard, String.ofList_toList]

theorem guardDigit_of_not_mem {chars : List Char} (h : '_' ∉ guardDigit chars) :
    guardDigit chars = chars := by
  cases chars with
  | nil => rfl
  | cons first rest =>
    cases hdigit : first.isDigit with
    | true => simp [guardDigit, hdigit] at h
    | false => simp [guardDigit, hdigit]

/-- A name that is made one without underscores is that one already. -/
theorem systemVerilog_eq_iff {name plain : String} (hplain : '_' ∉ plain.toList)
    (hlegal : isLegal plain = true) (hkeyword : plain ∉ keywords) :
    systemVerilog name = plain ↔ name = plain := by
  constructor
  · intro h
    have hchars : name.toList.map identChar = plain.toList := by
      unfold systemVerilog avoidKeyword at h
      split at h
      · exact absurd (h ▸ by simp) hplain
      · rw [← h, String.toList_ofList] at hplain ⊢
        exact (guardDigit_of_not_mem hplain).symm
    have hkept : name.toList.map identChar = name.toList := by
      refine (List.map_congr_left fun c hc => ?_).trans (List.map_id _)
      have hmem : identChar c ∈ plain.toList := hchars ▸ List.mem_map_of_mem hc
      unfold identChar at hmem ⊢
      split
      · rfl
      case isFalse hword => exact absurd (by simpa [hword] using hmem) hplain
    exact String.toList_inj.1 (hkept.symm.trans hchars)
  · rintro rfl
    rw [systemVerilog_of_isLegal hlegal, avoidKeyword, if_neg (by simpa using hkeyword)]

/-- Distinct legal names stay distinct, unless a keyword meets the name that it steps
aside to. -/
theorem nodup_map_systemVerilog_iff {names : List String} (hnodup : names.Nodup)
    (hlegal : ∀ name ∈ names, isLegal name = true) :
    (names.map systemVerilog).Nodup ↔ ¬ HasKeywordPair names := by
  constructor
  · rintro hmapped ⟨k, hk, hmem, hmem'⟩
    have hkeyword : systemVerilog k = k ++ "_" := by
      rw [systemVerilog_of_isLegal (hlegal k hmem), avoidKeyword, if_pos (by simpa using hk)]
    have hother : systemVerilog (k ++ "_") = k ++ "_" := by
      have hnot := append_underscore_not_mem_keywords k
      rw [systemVerilog_of_isLegal (hlegal _ hmem'), avoidKeyword, if_neg (by simpa using hnot)]
    have hsame := List.inj_on_of_nodup_map hmapped hmem hmem' (hkeyword.trans hother.symm)
    have hlength := congrArg String.length hsame
    simp at hlength
  · intro hnone
    apply hnodup.map_on
    intro a ha b hb hab
    rw [systemVerilog_of_isLegal (hlegal a ha), systemVerilog_of_isLegal (hlegal b hb)] at hab
    unfold avoidKeyword at hab
    split at hab <;> split at hab
    · exact (String.append_left_inj "_").1 hab
    case isTrue.isFalse hkeyword _ =>
      exact absurd ⟨a, by simpa using hkeyword, ha, hab ▸ hb⟩ hnone
    case isFalse.isTrue _ hkeyword =>
      exact absurd ⟨b, by simpa using hkeyword, hb, hab ▸ ha⟩ hnone
    · exact hab

end RegisterMap.Identifier
