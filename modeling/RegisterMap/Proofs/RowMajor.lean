import Mathlib.Data.List.Forall2
import Mathlib.Data.List.Lex
import Mathlib.Data.List.Nodup
import Mathlib.Tactic.Common
import RegisterMap.Proofs.Valid

/-!
The order of the elements of an array. Folding an index gives back the number that
it came from, and the other way round, whatever number the fold starts from: each
dimension takes its part of the number and leaves the rest to those around it. No step
of a fold goes further than the number of elements, so that words are wide enough for it.
-/

namespace RegisterMap.ArrayShape

/-- The number of an index, from the number of the array among others like it. -/
def ravelFrom (start : Nat) (dims index : List Nat) : Nat :=
  (dims.zip index).foldl (fun linear part => linear * part.1 + part.2) start

@[simp]
theorem ravelFrom_cons (start dim i : Nat) (dims index : List Nat) :
    ravelFrom start (dim :: dims) (i :: index) = ravelFrom (start * dim + i) dims index := rfl

theorem ravel_eq (a : ArrayShape) (index : List Nat) :
    a.ravel index = ravelFrom 0 a.dimensions index := rfl

/-- An index with a part for each dimension, and within it. -/
abbrev InRange (dims index : List Nat) : Prop := List.Forall₂ (· < ·) index dims

theorem inRange_unravelWith {dims : List Nat} (hpos : ∀ d ∈ dims, 0 < d) (linear : Nat) :
    InRange dims (unravelWith dims linear).1 := by
  induction dims with
  | nil => exact .nil
  | cons dim dims ih =>
    have hrest := ih fun d hd => hpos d (List.mem_cons_of_mem dim hd)
    exact .cons (Nat.mod_lt _ (hpos dim List.mem_cons_self)) hrest

/-- What the dimensions leave of a number. -/
theorem unravelWith_left (dims : List Nat) (linear : Nat) :
    (unravelWith dims linear).2 = linear / dims.prod := by
  induction dims with
  | nil => simp [unravelWith]
  | cons dim dims ih =>
    simp only [unravelWith, ih]
    rw [Nat.div_div_eq_div_mul, List.prod_cons, Nat.mul_comm]

theorem ravelFrom_unravelWith (dims : List Nat) (linear : Nat) :
    ravelFrom (unravelWith dims linear).2 dims (unravelWith dims linear).1 = linear := by
  induction dims with
  | nil => rfl
  | cons dim dims ih =>
    simp only [unravelWith, ravelFrom_cons]
    rw [Nat.div_add_mod', ih]

theorem unravelWith_ravelFrom {dims index : List Nat} (h : InRange dims index) (start : Nat) :
    unravelWith dims (ravelFrom start dims index) = (index, start) := by
  induction h generalizing start with
  | nil => rfl
  | @cons i dim index dims hi _ ih =>
    have hpos : 0 < dim := Nat.zero_lt_of_lt hi
    rw [ravelFrom_cons, unravelWith, ih]
    simp only [Nat.mul_comm start dim, Nat.mul_add_mod, Nat.mod_eq_of_lt hi,
      Nat.mul_add_div hpos, Nat.div_eq_of_lt hi, Nat.add_zero]

theorem ravelFrom_lt {dims index : List Nat} (h : InRange dims index) (start : Nat) :
    ravelFrom start dims index < (start + 1) * dims.prod := by
  induction h generalizing start with
  | nil => simp [ravelFrom]
  | @cons i dim index dims hi _ ih =>
    have hnext : start * dim + i + 1 ≤ (start + 1) * dim := by
      rw [Nat.succ_mul]
      omega
    calc ravelFrom start (dim :: dims) (i :: index)
        < (start * dim + i + 1) * dims.prod := ih (start * dim + i)
      _ ≤ (start + 1) * dim * dims.prod := Nat.mul_le_mul_right _ hnext
      _ = (start + 1) * (dim :: dims).prod := by rw [List.prod_cons, Nat.mul_assoc]

theorem le_ravelFrom {dims index : List Nat} (h : InRange dims index) (start : Nat) :
    start * dims.prod ≤ ravelFrom start dims index := by
  have hleft : start = ravelFrom start dims index / dims.prod := by
    rw [← unravelWith_left, unravelWith_ravelFrom h]
  calc start * dims.prod
      = ravelFrom start dims index / dims.prod * dims.prod := by rw [← hleft]
    _ ≤ ravelFrom start dims index := Nat.div_mul_le_self _ _

/-- Indices follow each other as their numbers do. -/
theorem ravelFrom_lt_ravelFrom {dims index other : List Nat} (h : InRange dims index)
    (hother : InRange dims other) (hlt : index < other) (start : Nat) :
    ravelFrom start dims index < ravelFrom start dims other := by
  induction h generalizing other start with
  | nil =>
    cases hother
    cases hlt
  | @cons i dim index dims _ hindex ih =>
    cases hother with
    | @cons j _ other _ _ hrest =>
      rw [ravelFrom_cons, ravelFrom_cons]
      cases hlt with
      | cons hlt => exact ih hrest hlt _
      | rel hij =>
        calc ravelFrom (start * dim + i) dims index
            < (start * dim + i + 1) * dims.prod := ravelFrom_lt hindex _
          _ ≤ (start * dim + j) * dims.prod := Nat.mul_le_mul_right _ (by omega)
          _ ≤ ravelFrom (start * dim + j) dims other := le_ravelFrom hrest _

/-! Folds in words. -/

/-- The number of an index, folded from the outermost dimension on. There is none where a
step leaves its word. -/
def ravelFrom? (start : Nat) (dims index : List Nat) : Option Nat :=
  (dims.zip index).foldlM (fun linear part => do Word.add? (← Word.mul? linear part.1) part.2)
    start

def ravel? (a : ArrayShape) (index : List Nat) : Option Nat := ravelFrom? 0 a.dimensions index

theorem ravelFrom?_cons {start dim i : Nat} (h : start * dim + i < Word.limit)
    (dims index : List Nat) :
    ravelFrom? start (dim :: dims) (i :: index) = ravelFrom? (start * dim + i) dims index := by
  have hproduct : Word.mul? start dim = some (start * dim) :=
    Word.mul?_eq_some_iff.2 ⟨rfl, Nat.lt_of_le_of_lt (Nat.le_add_right _ i) h⟩
  have hsum : Word.add? (start * dim) i = some (start * dim + i) :=
    Word.add?_eq_some_iff.2 ⟨rfl, h⟩
  rw [ravelFrom?, List.zip_cons_cons, List.foldlM_cons]
  simp only [hproduct, hsum, Option.bind_eq_bind, Option.bind_some]
  rfl

theorem prod_pos_of_inRange {dims index : List Nat} (h : InRange dims index) : 0 < dims.prod := by
  induction h with
  | nil => exact Nat.one_pos
  | cons hi _ ih =>
    rw [List.prod_cons]
    exact Nat.mul_pos (Nat.zero_lt_of_lt hi) ih

/-- A fold stays below the number of all elements, and so does each part of it. -/
theorem ravelFrom?_eq_some {dims index : List Nat} (h : InRange dims index) {start : Nat}
    (hword : (start + 1) * dims.prod ≤ Word.limit) :
    ravelFrom? start dims index = some (ravelFrom start dims index) := by
  induction h generalizing start with
  | nil => rfl
  | @cons i dim index dims hi hrest ih =>
    have hnext : start * dim + i + 1 ≤ (start + 1) * dim := by
      rw [Nat.succ_mul]
      omega
    have hall : (start * dim + i + 1) * dims.prod ≤ Word.limit :=
      calc (start * dim + i + 1) * dims.prod
          ≤ (start + 1) * dim * dims.prod := Nat.mul_le_mul_right _ hnext
        _ = (start + 1) * (dim :: dims).prod := by rw [List.prod_cons, Nat.mul_assoc]
        _ ≤ Word.limit := hword
    have hstep : start * dim + i < Word.limit :=
      Nat.lt_of_lt_of_le (Nat.le_mul_of_pos_right _ (prod_pos_of_inRange hrest)) hall
    rw [ravelFrom?_cons hstep, ravelFrom_cons, ih hall]

/-! The elements of an array that can be counted. -/

/-- No dimension is zero, and the number of elements is a word. -/
structure IsCounted (a : ArrayShape) : Prop where
  dimension_pos : ∀ d ∈ a.dimensions, 0 < d
  prod_lt : a.dimensions.prod < Word.limit

theorem IsSound.isCounted {a : ArrayShape} (h : a.IsSound) : a.IsCounted :=
  ⟨fun _ hd => h.dimension_pos hd, h.count_eq ▸ h.count_lt⟩

theorem unravel_ravel {a : ArrayShape} {index : List Nat} (hindex : InRange a.dimensions index) :
    a.unravel (a.ravel index) = index := by
  rw [ravel_eq, unravel, unravelWith_ravelFrom hindex]

namespace IsCounted

variable {a : ArrayShape}

theorem checkedCount?_eq (h : a.IsCounted) : a.checkedCount? = some a.dimensions.prod :=
  Word.product?_of_pos h.dimension_pos h.prod_lt

theorem count_eq (h : a.IsCounted) : a.count = a.dimensions.prod := by
  rw [count, h.checkedCount?_eq, Option.getD_some]

theorem inRange_unravel (h : a.IsCounted) (linear : Nat) :
    InRange a.dimensions (a.unravel linear) :=
  inRange_unravelWith h.dimension_pos linear

/-- There is no division by zero. -/
theorem unravel?_eq (h : a.IsCounted) (linear : Nat) :
    a.unravel? linear = some (a.unravel linear) := by
  have hzero : ¬ a.dimensions.contains 0 = true := fun hcontains =>
    Nat.lt_irrefl 0 (h.dimension_pos 0 (List.contains_iff_mem.1 hcontains))
  rw [unravel?, if_neg hzero]

theorem ravel_unravel (h : a.IsCounted) {linear : Nat} (hlinear : linear < a.count) :
    a.ravel (a.unravel linear) = linear := by
  have hleft : (unravelWith a.dimensions linear).2 = 0 := by
    rw [unravelWith_left, ← h.count_eq]
    exact Nat.div_eq_of_lt hlinear
  have hback := ravelFrom_unravelWith a.dimensions linear
  rwa [hleft] at hback

theorem ravel_lt (h : a.IsCounted) {index : List Nat} (hindex : InRange a.dimensions index) :
    a.ravel index < a.count := by
  have hlt := ravelFrom_lt hindex 0
  rwa [Nat.zero_add, Nat.one_mul, ← h.count_eq] at hlt

theorem ravel?_eq (h : a.IsCounted) {index : List Nat} (hindex : InRange a.dimensions index) :
    a.ravel? index = some (a.ravel index) := by
  have hword : (0 + 1) * a.dimensions.prod ≤ Word.limit := by
    rw [Nat.zero_add, Nat.one_mul]
    exact Nat.le_of_lt h.prod_lt
  exact ravelFrom?_eq_some hindex hword

/-- Elements with one index are one element. -/
theorem unravel_injOn (h : a.IsCounted) {i j : Nat} (hi : i < a.count) (hj : j < a.count)
    (hij : a.unravel i = a.unravel j) : i = j := by
  rw [← h.ravel_unravel hi, hij, h.ravel_unravel hj]

theorem nodup_indices (h : a.IsCounted) : a.indices.Nodup :=
  List.Nodup.map_on (fun _ hi _ hj =>
    h.unravel_injOn (List.mem_range.1 hi) (List.mem_range.1 hj)) List.nodup_range

/-- The indices are in lexicographic order. -/
theorem pairwise_indices (h : a.IsCounted) : a.indices.Pairwise (· < ·) := by
  rw [indices, List.pairwise_map]
  refine List.pairwise_lt_range.imp_of_mem fun {i j} hi hj hij => ?_
  rw [List.mem_range] at hi hj
  rcases lt_trichotomy (a.unravel i) (a.unravel j) with hlt | heq | hgt
  · exact hlt
  · exact absurd hij (h.unravel_injOn hi hj heq ▸ Nat.lt_irrefl i)
  · have hback := ravelFrom_lt_ravelFrom (h.inRange_unravel j) (h.inRange_unravel i) hgt 0
    rw [← ravel_eq, ← ravel_eq, h.ravel_unravel hi, h.ravel_unravel hj] at hback
    omega

/-- The indices are all those in range. -/
theorem mem_indices_iff (h : a.IsCounted) {index : List Nat} :
    index ∈ a.indices ↔ InRange a.dimensions index := by
  simp only [indices, List.mem_map, List.mem_range]
  constructor
  · rintro ⟨linear, _, rfl⟩
    exact h.inRange_unravel linear
  · intro hindex
    exact ⟨a.ravel index, h.ravel_lt hindex, unravel_ravel hindex⟩

theorem length_indices (h : a.IsCounted) : a.indices.length = a.dimensions.prod := by
  rw [indices, List.length_map, List.length_range, h.count_eq]

end IsCounted

/-- Along dimensions of one at least, whose product is a word, each number below the product
has one index in range and each index in range has one number. Either is worked out of the
other in words. All indices in range are listed once, the last dimension running fastest. -/
theorem numbers_indices {a : ArrayShape} (hpos : ∀ d ∈ a.dimensions, 1 ≤ d)
    (hword : a.dimensions.prod < Word.limit) :
    a.checkedCount? = some a.dimensions.prod ∧
      (∀ linear < a.dimensions.prod, ∃ index, a.unravel? linear = some index ∧
        InRange a.dimensions index ∧ a.ravel? index = some linear) ∧
      (∀ index, InRange a.dimensions index → ∃ linear < a.dimensions.prod,
        a.ravel? index = some linear ∧ a.unravel? linear = some index) ∧
      a.indices.length = a.dimensions.prod ∧ a.indices.Nodup ∧
      (∀ index, index ∈ a.indices ↔ InRange a.dimensions index) ∧
      a.indices.Pairwise (· < ·) := by
  have h : a.IsCounted := ⟨hpos, hword⟩
  refine ⟨h.checkedCount?_eq, fun linear hlinear => ?_, fun index hindex => ?_,
    h.length_indices, h.nodup_indices, fun _ => h.mem_indices_iff, h.pairwise_indices⟩
  · rw [← h.count_eq] at hlinear
    refine ⟨a.unravel linear, h.unravel?_eq linear, h.inRange_unravel linear, ?_⟩
    rw [h.ravel?_eq (h.inRange_unravel linear), h.ravel_unravel hlinear]
  · refine ⟨a.ravel index, h.count_eq ▸ h.ravel_lt hindex, h.ravel?_eq hindex, ?_⟩
    rw [h.unravel?_eq, unravel_ravel hindex]

/-- As many elements as there can be along two dimensions of 32 bits each. -/
def widestShape : ArrayShape := ⟨[4294967296, 1, 4294967295], 0⟩

theorem numbers_indices_of_widest :
    (∀ d ∈ widestShape.dimensions, 1 ≤ d) ∧ widestShape.dimensions.prod < Word.limit ∧
      widestShape.indices.length = 18446744069414584320 ∧
      widestShape.unravel? 18446744069414584319 = some [4294967295, 0, 4294967294] ∧
      widestShape.ravel? [4294967295, 0, 4294967294] = some 18446744069414584319 ∧
      [4294967295, 0, 4294967294] ∈ widestShape.indices := by
  have hpos : ∀ d ∈ widestShape.dimensions, 1 ≤ d := by decide
  have hword : widestShape.dimensions.prod < Word.limit := by decide
  have hlast : widestShape.unravel? 18446744069414584319 = some [4294967295, 0, 4294967294] := by
    decide
  obtain ⟨_, hnumber, _, hlength, _, hmem, _⟩ := numbers_indices hpos hword
  obtain ⟨index, hindex, hrange, hback⟩ := hnumber 18446744069414584319 (by decide)
  obtain rfl := Option.some.inj (hlast.symm.trans hindex)
  exact ⟨hpos, hword, hlength, hlast, hback, (hmem _).2 hrange⟩

example : (ArrayShape.mk [2, 3] 4).indices = [[0, 0], [0, 1], [0, 2], [1, 0], [1, 1], [1, 2]] := by
  decide

end RegisterMap.ArrayShape
