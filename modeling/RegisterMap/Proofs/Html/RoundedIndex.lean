import Mathlib.Algebra.BigOperators.Group.List.Lemmas
import RegisterMap.Decimal
import RegisterMap.Proofs.ElementIndex

/-!
The fold of an index in a browser. The dimensions of an array and the numbers of an index are
plain literals there, so they are doubles before they are folded: a number beyond fifty-three
binary digits is rounded to the nearest one. The fold is right at every index just if each
dimension is a double that has only doubles below it, or is behind dimensions that the fold
does not get to multiply.
-/

namespace RegisterMap.Html

open Decimal

/-- All numbers up to this one are doubles, and the next one is not. -/
def doubleBound : Nat := Nat.pow 2 53

theorem nearest_eq_self {n : Nat} (h : n ≤ doubleBound) : nearest n = n := by
  rcases Nat.lt_or_eq_of_le h with hlt | rfl
  · have hdigits : n.log2 - 52 = 0 := by
      by_cases hzero : n = 0
      · simp [hzero]
      · have hlog : n.log2 < 53 := (Nat.log2_lt hzero).2 hlt
        omega
    have hunit : Nat.pow 2 (n.log2 - 52) = 1 := by rw [hdigits, Nat.pow_eq, Nat.pow_zero]
    simp only [nearest, hunit, Nat.mod_one, Nat.div_one, Nat.mul_one]
    exact if_neg (by omega)
  · decide

theorem nearest_succ_doubleBound : nearest (doubleBound + 1) = doubleBound := by decide

/-- The number of an index as the script of a page folds it. -/
def scriptNumber (dims index : List Nat) : Nat :=
  ArrayShape.ravelFrom 0 (dims.map nearest) (index.map nearest)

theorem nearest_zero : nearest 0 = 0 := rfl

/-- Dimensions that an index is folded over in doubles as it is in exact numbers. A dimension
may be the first number that is no double if there is one element only of what is in front. -/
def AreFolded (dims : List Nat) : Prop :=
  ∀ front dim rest, dims = front ++ dim :: rest →
    dim ≤ doubleBound ∨ dim = doubleBound + 1 ∧ front.prod = 1

theorem AreFolded.of_le {dims : List Nat} (h : ∀ dim ∈ dims, dim ≤ doubleBound) :
    AreFolded dims := by
  rintro front dim rest rfl
  exact Or.inl (h dim (List.mem_append_right front List.mem_cons_self))

/-! Folds. -/

theorem ravelFrom_append {front index : List Nat} (h : index.length = front.length)
    (start : Nat) (rest other : List Nat) :
    ArrayShape.ravelFrom start (front ++ rest) (index ++ other) =
      ArrayShape.ravelFrom (ArrayShape.ravelFrom start front index) rest other := by
  rw [ArrayShape.ravelFrom, List.zip_append h.symm, List.foldl_append]
  rfl

theorem ravelFrom_zeros (start : Nat) (dims : List Nat) :
    ArrayShape.ravelFrom start dims (dims.map fun _ => 0) = start * dims.prod := by
  induction dims generalizing start with
  | nil => simp [ArrayShape.ravelFrom]
  | cons dim dims ih =>
    rw [List.map_cons, ArrayShape.ravelFrom_cons, ih, List.prod_cons, Nat.add_zero,
      Nat.mul_assoc]

theorem scriptNumber_zeros (dims : List Nat) : scriptNumber dims (dims.map fun _ => 0) = 0 := by
  have hzeros : (dims.map fun _ => 0).map nearest = (dims.map nearest).map fun _ => 0 := by
    rw [List.map_map, List.map_map]
    exact List.map_congr_left fun _ _ => nearest_zero
  rw [scriptNumber, hzeros, ravelFrom_zeros, Nat.zero_mul]

/-- Only a fold from zero can get past a dimension that is no double. -/
theorem ravelFrom_nearest {dims index : List Nat} (h : ArrayShape.InRange dims index)
    {start count : Nat} (hstart : start < count)
    (hdims : ∀ front dim rest, dims = front ++ dim :: rest →
      dim ≤ doubleBound ∨ dim = doubleBound + 1 ∧ count * front.prod = 1) :
    ArrayShape.ravelFrom start (dims.map nearest) (index.map nearest) =
      ArrayShape.ravelFrom start dims index := by
  induction h generalizing start count with
  | nil => rfl
  | @cons i dim index dims hi _ ih =>
    have hfirst := hdims [] dim dims rfl
    have hindex : nearest i = i := nearest_eq_self (by omega)
    have hproduct : start * nearest dim = start * dim := by
      rcases hfirst with hle | ⟨_, hone⟩
      · rw [nearest_eq_self hle]
      · rw [List.prod_nil, Nat.mul_one] at hone
        obtain rfl : start = 0 := by omega
        rw [Nat.zero_mul, Nat.zero_mul]
    have hnext : start * dim + i < count * dim :=
      calc start * dim + i
          < (start + 1) * dim := by rw [Nat.succ_mul]; omega
        _ ≤ count * dim := Nat.mul_le_mul_right dim hstart
    rw [List.map_cons, List.map_cons, ArrayShape.ravelFrom_cons, ArrayShape.ravelFrom_cons,
      hindex, hproduct]
    refine ih hnext fun front d rest heq => ?_
    have hlater := hdims (dim :: front) d rest (by rw [heq, List.cons_append])
    rwa [List.prod_cons, ← Nat.mul_assoc] at hlater

theorem AreFolded.scriptNumber_eq {dims index : List Nat} (h : AreFolded dims)
    (hindex : ArrayShape.InRange dims index) :
    scriptNumber dims index = ArrayShape.ravelFrom 0 dims index := by
  refine ravelFrom_nearest hindex Nat.one_pos fun front dim rest heq => ?_
  rw [Nat.one_mul]
  exact h front dim rest heq

/-! Wrong folds. -/

theorem le_prod_of_mem {dims : List Nat} (hpos : 0 < dims.prod) :
    ∀ dim ∈ dims, dim ≤ dims.prod :=
  fun _ hdim => Nat.le_of_dvd hpos (List.dvd_prod hdim)

/-- Where the dimensions on both sides are doubles, a fold over one in the middle goes wrong
just as a step over it does. -/
theorem nearest_step_eq {front rest : List Nat} {dim : Nat}
    (hpos : ∀ d ∈ front ++ dim :: rest, 0 < d) (hfront : ∀ d ∈ front, d ≤ doubleBound)
    (hrest : ∀ d ∈ rest, d ≤ doubleBound)
    (h : ∀ index, ArrayShape.InRange (front ++ dim :: rest) index →
      scriptNumber (front ++ dim :: rest) index =
        ArrayShape.ravelFrom 0 (front ++ dim :: rest) index)
    {linear i : Nat} (hlinear : linear < front.prod) (hi : i < dim) :
    linear * nearest dim + nearest i = linear * dim + i := by
  obtain ⟨hposFront, hposRest⟩ := List.forall_mem_append.1 hpos
  have hprodRest : 0 < rest.prod :=
    List.prod_pos_iff_forall_pos_nat.2 (List.forall_mem_cons.1 hposRest).2
  have hmapRest : rest.map nearest = rest :=
    List.map_congr_left (fun d hd => nearest_eq_self (hrest d hd)) |>.trans (List.map_id' rest)
  -- The index of an element of the front, a step, and the first element of the rest.
  let index := (ArrayShape.unravelWith front linear).1
  have hindex : ArrayShape.InRange front index := ArrayShape.inRange_unravelWith hposFront linear
  have hnumber : ArrayShape.ravelFrom 0 front index = linear := by
    have hleft : (ArrayShape.unravelWith front linear).2 = 0 := by
      rw [ArrayShape.unravelWith_left, Nat.div_eq_of_lt hlinear]
    have hback := ArrayShape.ravelFrom_unravelWith front linear
    rwa [hleft] at hback
  have hscript : ArrayShape.ravelFrom 0 (front.map nearest) (index.map nearest) = linear :=
    ((AreFolded.of_le hfront).scriptNumber_eq hindex).trans hnumber
  have hzeros : ArrayShape.InRange rest (rest.map fun _ => 0) :=
    List.forall₂_map_left_iff.2 (List.forall₂_same.2 (List.forall_mem_cons.1 hposRest).2)
  have hlength : (index.map nearest).length = (front.map nearest).length := by
    rw [List.length_map, List.length_map, hindex.length_eq]
  have hfold := h (index ++ i :: rest.map fun _ => 0) (List.rel_append hindex (.cons hi hzeros))
  rw [ravelFrom_append hindex.length_eq, hnumber, ArrayShape.ravelFrom_cons, ravelFrom_zeros,
    scriptNumber, List.map_append, List.map_append, ravelFrom_append hlength, hscript] at hfold
  simp only [List.map_cons, List.map_map, Function.comp_def, hmapRest,
    ArrayShape.ravelFrom_cons] at hfold
  rw [nearest_zero, ravelFrom_zeros] at hfold
  exact Nat.eq_of_mul_eq_mul_right hprodRest hfold

/-- There is no room in a word for a second factor of this size. -/
theorem le_doubleBound_of_mul_lt {a b : Nat} (h : a * b < Word.limit) (ha : doubleBound < a) :
    b ≤ doubleBound := by
  by_contra hlarge
  have htwo : Word.limit ≤ (doubleBound + 1) * (doubleBound + 1) := by decide
  have hle : (doubleBound + 1) * (doubleBound + 1) ≤ a * b := Nat.mul_le_mul ha (by omega)
  omega

/-- The dimensions that are folded rightly at every index. -/
theorem areFolded_iff {dims : List Nat} (hpos : ∀ d ∈ dims, 0 < d)
    (hword : dims.prod < Word.limit) :
    AreFolded dims ↔ ∀ index, ArrayShape.InRange dims index →
      scriptNumber dims index = ArrayShape.ravelFrom 0 dims index := by
  refine ⟨fun h index hindex => h.scriptNumber_eq hindex, ?_⟩
  rintro h front dim rest rfl
  by_contra hnot
  obtain ⟨hbig, hfront⟩ := not_or.1 hnot
  obtain ⟨hposFront, hposRest⟩ := List.forall_mem_append.1 hpos
  obtain ⟨hposDim, hposRest⟩ := List.forall_mem_cons.1 hposRest
  have hprodFront : 0 < front.prod := List.prod_pos_iff_forall_pos_nat.2 hposFront
  have hprodRest : 0 < rest.prod := List.prod_pos_iff_forall_pos_nat.2 hposRest
  rw [List.prod_append, List.prod_cons] at hword
  have hlarge : doubleBound < dim * rest.prod :=
    Nat.lt_of_lt_of_le (Nat.lt_of_not_le hbig) (Nat.le_mul_of_pos_right dim hprodRest)
  have hsmallFront : front.prod ≤ doubleBound :=
    le_doubleBound_of_mul_lt (by rwa [Nat.mul_comm]) hlarge
  have hsmallRest : rest.prod ≤ doubleBound :=
    le_doubleBound_of_mul_lt (Nat.lt_of_le_of_lt (Nat.le_mul_of_pos_left _ hprodFront) hword)
      (Nat.lt_of_not_le hbig)
  have hstep (linear i : Nat) (hlinear : linear < front.prod) (hi : i < dim) :=
    nearest_step_eq hpos (fun d hd => (le_prod_of_mem hprodFront d hd).trans hsmallFront)
      (fun d hd => (le_prod_of_mem hprodRest d hd).trans hsmallRest) h hlinear hi
  have hdim : dim = doubleBound + 1 := by
    by_contra hne
    have hwrong := hstep 0 (doubleBound + 1) hprodFront (by omega)
    rw [nearest_succ_doubleBound] at hwrong
    omega
  have hone : front.prod ≠ 1 := fun hone => hfront ⟨hdim, hone⟩
  have hwrong := hstep 1 0 (by omega) hposDim
  rw [hdim, nearest_succ_doubleBound, nearest_zero] at hwrong
  omega

end RegisterMap.Html
