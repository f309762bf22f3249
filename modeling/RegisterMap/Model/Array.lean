import RegisterMap.Model.Node

/-!
Elements of arrays. Elements are numbered in row-major order, the last
dimension running fastest, and element `i` lies `i` strides behind the first.
-/

namespace RegisterMap

namespace ArrayShape

/-- The number of elements, if it is a word. -/
def checkedCount? (a : ArrayShape) : Option Nat := Word.product? a.dimensions

/-- The number of elements, or the largest word where it is none. -/
def count (a : ArrayShape) : Nat := a.checkedCount?.getD Word.greatest

/-- The index of an element along each dimension, and what is left over of its
number once every dimension has taken its part. -/
def unravelWith : List Nat → Nat → List Nat × Nat
  | [], linear => ([], linear)
  | dim :: dims, linear =>
    let (index, left) := unravelWith dims linear
    (left % dim :: index, left / dim)

/-- The index of the element with a number. -/
def unravel (a : ArrayShape) (linear : Nat) : List Nat := (unravelWith a.dimensions linear).1

theorem length_unravelWith (dims : List Nat) (linear : Nat) :
    (unravelWith dims linear).1.length = dims.length := by
  induction dims with
  | nil => rfl
  | cons dim dims ih => simp [unravelWith, ih]

theorem length_unravel (a : ArrayShape) (linear : Nat) :
    (a.unravel linear).length = a.dimensions.length :=
  length_unravelWith a.dimensions linear

/-- An index exists along dimensions that are not zero only. -/
def unravel? (a : ArrayShape) (linear : Nat) : Option (List Nat) :=
  if a.dimensions.contains 0 then none else some (a.unravel linear)

/-- The number of the element with an index. -/
def ravel (a : ArrayShape) (index : List Nat) : Nat :=
  (a.dimensions.zip index).foldl (fun linear part => linear * part.1 + part.2) 0

/-- All indices, in the order of the elements. -/
def indices (a : ArrayShape) : List (List Nat) := (List.range a.count).map a.unravel

end ArrayShape

/-- The address of an element of an instance, from its parent's address. -/
def elementAddress (parent offset stride linear : Nat) : Nat := parent + offset + linear * stride

/-- The address of an element, if it is a word; then so is every part of it. -/
def elementAddress? (parent offset stride linear : Nat) : Option Nat :=
  Word.ofNat? (elementAddress parent offset stride linear)

theorem elementAddress_le {parent offset stride i j : Nat} (h : i ≤ j) :
    elementAddress parent offset stride i ≤ elementAddress parent offset stride j :=
  Nat.add_le_add_left (Nat.mul_le_mul_right stride h) (parent + offset)

namespace ArrayShape

/-- Whether all elements have addresses, from the parent's address and the offset
of the array. The last element lies highest, so it speaks for all. -/
def fits (a : ArrayShape) (parent offset : Nat) : Bool :=
  a.count = 0 || (elementAddress? parent offset a.stride (a.count - 1)).isSome

theorem fits_iff (a : ArrayShape) (parent offset : Nat) :
    a.fits parent offset = true ↔
      ∀ i < a.count, (elementAddress? parent offset a.stride i).isSome := by
  simp only [fits, Bool.or_eq_true, decide_eq_true_eq, elementAddress?, Word.isSome_ofNat?_iff]
  constructor
  · intro h i hi
    cases h with
    | inl hzero => omega
    | inr hlast => exact Nat.lt_of_le_of_lt (elementAddress_le (by omega)) hlast
  · intro h
    by_cases hzero : a.count = 0
    · exact Or.inl hzero
    · exact Or.inr (h _ (by omega))

end ArrayShape

namespace Node

/-- Whether the addresses of all elements of a node can be listed, from its
parent's address: all are words, and there are not too many for a list. -/
def isListable (n : Node) (parent : Nat) : Bool :=
  match n.array with
  | some a => a.count < Word.listLimit && a.fits parent n.offset
  | none => (Word.add? parent n.offset).isSome

/-- The addresses of all elements of a node, one where it is no array. -/
def elementAddresses (n : Node) (parent : Nat) : List Nat :=
  match n.array with
  | some a => (List.range a.count).map (elementAddress parent n.offset a.stride)
  | none => [parent + n.offset]

theorem isListable_iff (n : Node) (parent : Nat) :
    n.isListable parent = true ↔
      (n.elementAddresses parent).length < Word.listLimit ∧
        ∀ address ∈ n.elementAddresses parent, address < Word.limit := by
  unfold isListable elementAddresses
  cases n.array with
  | none => simp [Word.add?, Word.isSome_ofNat?_iff, Word.listLimit, Word.limit, Word.bytes]
  | some a =>
    simp [ArrayShape.fits_iff, elementAddress?, Word.isSome_ofNat?_iff]

/-- The addresses of all elements of a node, if they can be listed. -/
def elementAddresses? (n : Node) (parent : Nat) : Option (List Nat) :=
  if n.isListable parent then some (n.elementAddresses parent) else none

end Node

/-- How the stride of a register array compares with the size of a register. -/
inductive StrideCheck where
  | contiguous
  | sparse (stride size : Nat)
  | overlapping (stride size : Nat)
deriving DecidableEq, Repr

/-- A register that is no array counts as contiguous. -/
def Node.strideCheck (n : Node) : StrideCheck :=
  match n.array with
  | none => .contiguous
  | some a =>
    let size := n.regWidth / 8
    if a.stride = size then .contiguous
    else if size < a.stride then .sparse a.stride size
    else .overlapping a.stride size

end RegisterMap
