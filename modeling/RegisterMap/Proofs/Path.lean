import Mathlib.Data.List.Basic
import Mathlib.Tactic.Common
import RegisterMap.FileSet
import RegisterMap.Proofs.Text.Split

/-!
Paths by their components. Paths that are not told apart by their order have the same
components, and the name of a file is a piece of its path, so that there is no slash in it.
-/

namespace RegisterMap

instance : Std.LawfulEqOrd Path.Component where
  eq_of_compare {a b} h := by
    change compareLex (compareOn Path.Component.rank) (compareOn Path.Component.name) a b = .eq at h
    rw [compareLex_eq_eq] at h
    have hrank : a.rank = b.rank := Std.LawfulEqCmp.eq_of_compare h.1
    have hname : a.name = b.name := Std.LawfulEqCmp.eq_of_compare h.2
    cases a <;> cases b <;> simp_all [Path.Component.rank, Path.Component.name]

namespace Path

variable {p : Path}

theorem components_eq_of_order {p q : Path} (h : order p q = .eq) :
    p.components = q.components := by
  have hcompare : compare p.components q.components = .eq := h
  exact Std.LawfulEqCmp.eq_of_compare hcompare

/-- A piece that counts stands at its position, and is not empty or a dot behind the first. -/
theorem getElem?_of_mem_countingPieces {position : Nat} {piece : List Char}
    (h : (position, piece) ∈ p.countingPieces) :
    p.pieces[position]? = some piece ∧ piece ≠ [] ∧ (position ≠ 0 → piece ≠ ['.']) := by
  obtain ⟨⟨found, index⟩, hmem, hsome⟩ := List.mem_filterMap.1 h
  obtain ⟨hcounts, hpair⟩ := Option.ite_none_right_eq_some.1 hsome
  obtain ⟨rfl, rfl⟩ := Prod.mk.inj (Option.some.inj hpair)
  rw [counts, Bool.and_eq_true] at hcounts
  refine ⟨List.mem_zipIdx_iff_getElem?.1 hmem, by simpa using hcounts.1, fun hposition => ?_⟩
  simpa [hposition] using hcounts.2

/-- The name of a file is one of the pieces of its path, and not empty. -/
theorem mem_pieces_of_fileName? {name : String} (h : p.fileName? = some name) :
    name.toList ∈ p.pieces ∧ name.toList ≠ [] := by
  unfold fileName? at h
  split at h
  case h_2 => cases h
  case h_1 found hlast =>
    obtain rfl := Option.some.inj h
    have hmem := List.mem_of_getLast? hlast
    rw [components, List.mem_append, List.mem_map] at hmem
    rcases hmem with hroot | ⟨⟨position, piece⟩, hcounts, hpiece⟩
    · split at hroot
      · cases List.mem_singleton.1 hroot
      · cases hroot
    · obtain ⟨hat, hne, _⟩ := getElem?_of_mem_countingPieces hcounts
      unfold Component.ofPiece at hpiece
      split_ifs at hpiece
      obtain rfl : String.ofList piece = found := Component.named.inj hpiece
      rw [String.toList_ofList]
      exact ⟨List.mem_of_getElem? hat, hne⟩

theorem slash_not_mem_fileName (p : Path) : '/' ∉ (p.fileName?.getD "").toList := by
  cases h : p.fileName? with
  | none => simp
  | some name => exact Text.not_mem_of_mem_splitAt _ (mem_pieces_of_fileName? h).1

/-- An empty name stands for none. -/
theorem fileName?_eq_of_getD_eq {q : Path} (h : p.fileName?.getD "" = q.fileName?.getD "") :
    p.fileName? = q.fileName? := by
  have hne {path : Path} {name : String} (hname : path.fileName? = some name) : name ≠ "" := by
    rintro rfl
    exact (mem_pieces_of_fileName? hname).2 rfl
  cases hp : p.fileName? with
  | none =>
    cases hq : q.fileName? with
    | none => rfl
    | some name => exact absurd (by simpa [hp, hq] using h.symm) (hne hq)
  | some name =>
    cases hq : q.fileName? with
    | none => exact absurd (by simpa [hp, hq] using h) (hne hp)
    | some other => simpa [hp, hq] using h

end Path

end RegisterMap
