import RegisterMap.Proofs.Occurrence
import RegisterMap.Proofs.RowMajor
import RegisterMap.Proofs.Visited

/-!
The element of a node with an index. Each index in range belongs to one element, whose
number among the others is the fold of the index.
-/

namespace RegisterMap

namespace ArrayShape

theorem ravelFrom_zeros (dims : List Nat) : ravelFrom 0 dims (dims.map fun _ => 0) = 0 := by
  induction dims with
  | nil => rfl
  | cons dim dims ih => rw [List.map_cons, ravelFrom_cons, Nat.zero_mul, ih]

theorem IsSound.inRange_zeros {a : ArrayShape} (h : a.IsSound) :
    InRange a.dimensions (a.dimensions.map fun _ => 0) :=
  List.forall₂_map_left_iff.2 (List.forall₂_same.2 fun _ hd => h.dimension_pos hd)

end ArrayShape

/-! The element of a child with an index. -/

namespace Node

variable {n : Node} {index : List Nat}

/-- The number of the element with an index, zero where the node is no array. -/
def linearOf (n : Node) (index : List Nat) : Nat := (n.array.map (·.ravel index)).getD 0

/-- An index of an element of a node. All are where the node is no array. -/
def HasIndex (n : Node) (index : List Nat) : Prop :=
  ∀ a, n.array = some a → ArrayShape.InRange a.dimensions index

theorem linearOf_of_none (h : n.array = none) (index : List Nat) : n.linearOf index = 0 := by
  simp [linearOf, h]

theorem linearOf_of_some {a : ArrayShape} (h : n.array = some a) (index : List Nat) :
    n.linearOf index = ArrayShape.ravelFrom 0 a.dimensions index := by
  simp [linearOf, h, ArrayShape.ravel_eq]

theorem linearOf_lt (hvalid : n.IsValid) (hindex : n.HasIndex index) :
    n.linearOf index < n.elementCount := by
  cases harray : n.array with
  | none => simp [linearOf, elementCount, harray]
  | some a =>
    simp only [linearOf, elementCount, harray, Option.map_some, Option.getD_some]
    exact (hvalid.array_isSound harray).isCounted.ravel_lt (hindex a harray)

/-- Of the numbers of the elements, that of an index is the one that unravels to it. -/
theorem unravel_eq_iff (hvalid : n.IsValid) (hindex : n.HasIndex index) {linear : Nat}
    (hlinear : linear < n.elementCount) :
    n.array.map (·.unravel linear) = n.array.map (fun _ => index) ↔ linear = n.linearOf index := by
  cases harray : n.array with
  | none =>
    simp only [elementCount, harray, Option.map_none, Option.getD_none] at hlinear
    simp only [linearOf, harray, Option.map_none, Option.getD_none, true_iff]
    omega
  | some a =>
    have hsound := hvalid.array_isSound harray
    simp only [elementCount, harray, Option.map_some, Option.getD_some] at hlinear
    simp only [linearOf, harray, Option.map_some, Option.getD_some, Option.some.injEq]
    constructor
    · rintro rfl
      exact (hsound.isCounted.ravel_unravel hlinear).symm
    · rintro rfl
      exact ArrayShape.unravel_ravel (hindex a harray)

end Node

namespace Element

variable {options : WalkOptions}

/-- A child that is met as a whole lies at its own offset. -/
theorem offset_of_mem_children (hroll : options.unroll = false) {e parent : Element}
    (h : e ∈ parent.children options) : e.offset = e.node.offset := by
  obtain ⟨child, _, he⟩ := List.mem_flatMap.1 h
  have hmet : child.isSkipped options = false :=
    node_of_mem_ofChild he ▸ isSkipped_of_mem_children h
  rw [ofChild_of_whole hroll hmet, List.mem_singleton] at he
  simp [he, whole, Element.offset]

/-- An unrolled walk meets one element of a child for each index. -/
theorem mem_children_unrolled_iff {parent e : Element} {n : Node} {index : List Nat}
    (hchild : n ∈ parent.node.children) (hmet : n.isSkipped options = false) (hvalid : n.IsValid)
    (hindex : n.HasIndex index) :
    e ∈ parent.children options.unrolled ∧ e.node = n ∧ e.index = n.array.map (fun _ => index) ↔
      e = nth options.unrolled parent n (n.linearOf index) := by
  constructor
  · rintro ⟨he, hnode, hat⟩
    obtain ⟨child, _, hof⟩ := List.mem_flatMap.1 he
    obtain rfl : child = n := (node_of_mem_ofChild hof).symm.trans hnode
    obtain ⟨linear, hlinear, rfl⟩ := List.mem_map.1 hof
    rw [List.mem_range, metCount_unrolled hmet] at hlinear
    rw [index_nth_unrolled, Node.unravel_eq_iff hvalid hindex hlinear] at hat
    rw [hat]
  · rintro rfl
    have hlt := Node.linearOf_lt hvalid hindex
    refine ⟨List.mem_flatMap.2 ⟨n, hchild, List.mem_map_of_mem (List.mem_range.2 ?_)⟩,
      nth_node _ _ _ _, ?_⟩
    · rwa [metCount_unrolled hmet]
    · rw [index_nth_unrolled, Node.unravel_eq_iff hvalid hindex hlt]

end Element

/-! The indices of a node. -/

namespace Node

variable {n : Node}

/-- An index that belongs to an element of a node, the empty one where it is no array. -/
structure Admits (n : Node) (index : List Nat) : Prop where
  hasIndex : n.HasIndex index
  eq_nil : n.array = none → index = []

/-- The indices of the elements of a node, in their order. -/
def elementIndices (n : Node) : List (List Nat) := (List.range n.elementCount).map n.elementIndex

theorem elementIndices_of_none (h : n.array = none) : n.elementIndices = [[]] := by
  simp [elementIndices, elementCount, elementIndex, h]

theorem elementIndices_of_some {a : ArrayShape} (h : n.array = some a) :
    n.elementIndices = a.indices := by
  simp [elementIndices, elementCount, elementIndex, h, ArrayShape.indices]

theorem mem_elementIndices_iff (hvalid : n.IsValid) {index : List Nat} :
    index ∈ n.elementIndices ↔ n.Admits index := by
  cases harray : n.array with
  | none =>
    rw [elementIndices_of_none harray, List.mem_singleton]
    exact ⟨fun h => ⟨by simp [HasIndex, harray], fun _ => h⟩, fun h => h.eq_nil harray⟩
  | some a =>
    rw [elementIndices_of_some harray, (hvalid.array_isSound harray).isCounted.mem_indices_iff]
    exact ⟨fun h => ⟨by simpa [HasIndex, harray] using h, by simp [harray]⟩,
      fun h => h.hasIndex a harray⟩

theorem pairwise_elementIndices (hvalid : n.IsValid) : n.elementIndices.Pairwise (· < ·) := by
  cases harray : n.array with
  | none =>
    rw [elementIndices_of_none harray]
    exact List.pairwise_singleton _ _
  | some a =>
    rw [elementIndices_of_some harray]
    exact (hvalid.array_isSound harray).isCounted.pairwise_indices

theorem linearOf_elementIndex (hvalid : n.IsValid) {linear : Nat}
    (h : linear < n.elementCount) : n.linearOf (n.elementIndex linear) = linear := by
  cases harray : n.array with
  | none =>
    simp only [elementCount, harray, Option.map_none, Option.getD_none] at h
    simp only [linearOf, harray, Option.map_none, Option.getD_none]
    omega
  | some a =>
    simp only [elementCount, harray, Option.map_some, Option.getD_some] at h
    simp only [linearOf, elementIndex, harray, Option.map_some, Option.getD_some]
    exact (hvalid.array_isSound harray).isCounted.ravel_unravel h

/-- Only the first element has an index of zeros. -/
theorem all_zero_elementIndex_iff (hvalid : n.IsValid) {linear : Nat}
    (h : linear < n.elementCount) :
    (n.elementIndex linear).all (· == 0) = true ↔ linear = 0 := by
  cases harray : n.array with
  | none =>
    simp only [elementCount, harray, Option.map_none, Option.getD_none] at h
    simp only [elementIndex, harray, Option.map_none, Option.getD_none, List.all_nil, true_iff]
    omega
  | some a =>
    have hsound := hvalid.array_isSound harray
    simp only [elementCount, harray, Option.map_some, Option.getD_some] at h
    simp only [elementIndex, harray, Option.map_some, Option.getD_some]
    constructor
    · intro hzeros
      have heq : a.unravel linear = a.dimensions.map fun _ => 0 := by
        rw [List.map_const', List.eq_replicate_iff, a.length_unravel]
        exact ⟨rfl, by simpa using hzeros⟩
      rw [← hsound.isCounted.ravel_unravel h, heq, ArrayShape.ravel_eq, ArrayShape.ravelFrom_zeros]
    · rintro rfl
      have hfirst := ArrayShape.unravel_ravel hsound.inRange_zeros
      rw [ArrayShape.ravel_eq, ArrayShape.ravelFrom_zeros] at hfirst
      simp [hfirst]

end Node

end RegisterMap
