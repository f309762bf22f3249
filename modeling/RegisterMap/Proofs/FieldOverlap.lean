import Mathlib.Data.List.Basic
import Mathlib.Tactic.Common
import RegisterMap.Model.Validate

/-!
Fields of a register that share no bit. The check looks at neighbours in the order of their
low bits only. That is enough: in this order a field that ends in front of its neighbour
ends in front of all later ones.
-/

namespace RegisterMap

/-- Two fields without a common bit. -/
def Field.IsApart (a b : Field) : Prop := a.msb < b.lsb ∨ b.msb < a.lsb

instance (a b : Field) : Decidable (a.IsApart b) :=
  inferInstanceAs (Decidable (a.msb < b.lsb ∨ b.msb < a.lsb))

theorem Field.IsApart.symm {a b : Field} (h : a.IsApart b) : b.IsApart a := Or.symm h

theorem firstOverlap?_eq_none_iff {fields : List Field}
    (hsorted : fields.Pairwise fun a b => a.lsb ≤ b.lsb) (hranges : ∀ f ∈ fields, f.lsb ≤ f.msb) :
    firstOverlap? fields = none ↔ fields.Pairwise Field.IsApart := by
  induction fields with
  | nil => simp [firstOverlap?]
  | cons a rest ih =>
    cases rest with
    | nil => simp [firstOverlap?]
    | cons b rest =>
      obtain ⟨hfirst, hrest⟩ := List.pairwise_cons.1 hsorted
      have hneighbour : a.lsb ≤ b.lsb := hfirst b List.mem_cons_self
      have hrange : b.lsb ≤ b.msb := hranges b (by simp)
      have hlater := ih hrest fun f hf => hranges f (List.mem_cons_of_mem a hf)
      rw [firstOverlap?, List.pairwise_cons]
      split
      case isTrue hoverlap =>
        simp only [reduceCtorEq, false_iff, not_and]
        intro hapart
        have hpair : a.msb < b.lsb ∨ b.msb < a.lsb := hapart b List.mem_cons_self
        omega
      case isFalse hends =>
        rw [hlater, iff_and_self]
        intro _ c hc
        have hbehind : b.lsb ≤ c.lsb := by
          rcases List.mem_cons.1 hc with rfl | hc
          · exact Nat.le_refl _
          · exact (List.pairwise_cons.1 hrest).1 c hc
        exact Or.inl (by omega)

theorem pairwise_sortFields (fields : List Field) :
    (sortFields fields).Pairwise fun a b => a.lsb ≤ b.lsb := by
  have hsorted : (sortFields fields).Pairwise fun a b => decide (a.lsb ≤ b.lsb) = true :=
    List.pairwise_mergeSort (fun a b c => by simp only [decide_eq_true_eq]; omega)
      (fun a b => by simp only [Bool.or_eq_true, decide_eq_true_eq]; omega) fields
  exact hsorted.imp of_decide_eq_true

/-- The check passes fields of which no two share a bit. -/
theorem checkOverlap_eq_ok_iff {fields : List Field} (path : String)
    (hranges : ∀ f ∈ fields, f.lsb ≤ f.msb) :
    checkOverlap path fields = .ok () ↔ fields.Pairwise Field.IsApart := by
  have hperm : (sortFields fields).Perm fields := List.mergeSort_perm fields _
  have hnone := firstOverlap?_eq_none_iff (pairwise_sortFields fields)
    fun f hf => hranges f (hperm.mem_iff.1 hf)
  rw [hperm.pairwise_iff Field.IsApart.symm] at hnone
  rw [← hnone, checkOverlap]
  cases firstOverlap? (sortFields fields) <;> simp

end RegisterMap
