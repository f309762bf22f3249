import Mathlib.Data.List.Perm.Basic
import RegisterMap.Proofs.Text.Identifier
import RegisterMap.Uvm.Name

/-!
The names that classes are given. A name is legal whatever the path is that it comes
from, and it is the first of the numbered names that is free. The names in use are
those of the classes, so that no two classes share one.
-/

namespace RegisterMap.Uvm

theorem isLegal_numberedName (name : String) {suffix : String}
    (hsuffix : ∀ c ∈ suffix.toList, Identifier.isWordChar c = true) (n : Nat) :
    Identifier.isLegal (numberedName (Identifier.systemVerilog name) suffix n) = true := by
  have hfront := Identifier.isFront_systemVerilog name
  have hdigits : ∀ c ∈ (toString n).toList, Identifier.isWordChar c = true := by
    intro c hc
    rw [Nat.toString_eq_ofList_toDigits, String.toList_ofList] at hc
    have hdigit := Nat.isDigit_of_mem_toDigits (by decide) (by decide) hc
    simp [Identifier.isWordChar, Char.isAlphanum, hdigit]
  have hback : ∃ back, (numberedName (Identifier.systemVerilog name) suffix n).toList =
      (Identifier.systemVerilog name).toList ++ '_' :: back ∧
        ∀ c ∈ back, Identifier.isWordChar c = true := by
    unfold numberedName
    split
    · exact ⟨suffix.toList, by simp, hsuffix⟩
    · refine ⟨(toString n).toList ++ '_' :: suffix.toList, by simp, ?_⟩
      intro c hc
      rcases List.mem_append.1 hc with hc | hc
      · exact hdigits c hc
      · rcases List.mem_cons.1 hc with rfl | hc
        · decide
        · exact hsuffix c hc
  obtain ⟨back, hchars, hwords⟩ := hback
  refine Identifier.isLegal_of_front ?_ (by simp [hchars])
  rw [hchars]
  exact hfront.append ⟨List.forall_mem_cons.2 ⟨by decide, hwords⟩, by simp⟩

/-- A free name is found by counting: it is the first of the numbered names that is not in
use, and the count goes no further than the names in use do. -/
theorem freeName_eq_first (names : Std.TreeSet String) (base suffix : String) :
    ∃ n, 1 ≤ n ∧ n ≤ names.size + 1 ∧ freeName names base suffix = numberedName base suffix n ∧
      ∀ m, 1 ≤ m → m < n → numberedName base suffix m ∈ names := by
  have hcount : ∀ tries first, ∃ n, first ≤ n ∧ n ≤ first + tries ∧
      firstFree names base suffix tries first = numberedName base suffix n ∧
        ∀ m, first ≤ m → m < n → numberedName base suffix m ∈ names := by
    intro tries
    induction tries with
    | zero =>
      intro first
      exact ⟨first, by omega, by omega, rfl, fun m hm hlt => by omega⟩
    | succ tries ih =>
      intro first
      rw [firstFree]
      cases hused : names.contains (numberedName base suffix first) with
      | false => exact ⟨first, by omega, by omega, rfl, fun m hm hlt => by omega⟩
      | true =>
        obtain ⟨n, hfirst, hn, hname, hbefore⟩ := ih (first + 1)
        refine ⟨n, by omega, by omega, hname, fun m hm hlt => ?_⟩
        rcases Nat.eq_or_lt_of_le hm with rfl | hm
        · exact Std.TreeSet.contains_iff_mem.1 hused
        · exact hbefore m hm hlt
  obtain ⟨n, hfirst, hn, hname, hbefore⟩ := hcount names.size 1
  exact ⟨n, hfirst, by omega, hname, hbefore⟩

theorem isLegal_freeName (names : Std.TreeSet String) (name : String) {suffix : String}
    (hsuffix : suffix.toList.all Identifier.isWordChar = true) :
    Identifier.isLegal (freeName names (Identifier.systemVerilog name) suffix) = true := by
  obtain ⟨n, _, _, hname, _⟩ := freeName_eq_first names (Identifier.systemVerilog name) suffix
  rw [hname]
  exact isLegal_numberedName name (List.all_eq_true.1 hsuffix) n

/-- The names in use are those of some classes, each of one only. -/
structure Named (names : Std.TreeSet String) (classes : List String) : Prop where
  nodup : classes.Nodup
  mem_iff : ∀ name, name ∈ names ↔ name ∈ classes
  legal : ∀ name ∈ classes, Identifier.isLegal name = true

namespace Named

variable {names : Std.TreeSet String} {classes classes' : List String}

theorem perm (h : Named names classes) (hperm : classes'.Perm classes) : Named names classes' where
  nodup := hperm.nodup_iff.2 h.nodup
  mem_iff name := (h.mem_iff name).trans hperm.mem_iff.symm
  legal name hname := h.legal name (hperm.mem_iff.1 hname)

/-- A class joins the others under a free name. -/
theorem take (h : Named names classes) {name : String} (hfree : name ∉ names)
    (hlegal : Identifier.isLegal name = true) (hperm : classes'.Perm (name :: classes)) :
    Named (names.insert name) classes' := by
  refine perm ⟨?_, ?_, ?_⟩ hperm
  · exact List.nodup_cons.2 ⟨fun hname => hfree ((h.mem_iff name).2 hname), h.nodup⟩
  · intro other
    rw [Std.TreeSet.mem_insert, Std.LawfulEqCmp.compare_eq_iff_eq, h.mem_iff, List.mem_cons,
      eq_comm]
  · exact List.forall_mem_cons.2 ⟨hlegal, h.legal⟩

end Named

end RegisterMap.Uvm
