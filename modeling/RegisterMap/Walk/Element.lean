import RegisterMap.Model.Size
import RegisterMap.Model.Validate

/-!
The elements that a walk meets: a node with the address it has there and the
path to it. An array is met as a whole, at the address of its first element, or
unrolled into one element for each index. The elements of a child are numbered,
so that a walk can take them one by one.
-/

namespace RegisterMap

structure WalkOptions where
  /-- Passes over nodes and fields that are not present. -/
  skipAbsent : Bool := false
  /-- Meets every element of an array by itself. -/
  unroll : Bool := false
deriving DecidableEq, Repr

namespace Node

/-- The fields of a register that a walk meets. -/
def metFields (n : Node) (options : WalkOptions) : List Field :=
  n.fields.filter fun f => !options.skipAbsent || f.isPresent

/-- The array whose elements a walk meets one by one. -/
def metShape? (n : Node) (options : WalkOptions) : Option ArrayShape :=
  if options.unroll then n.array else none

/-- How many elements a walk meets a node as. -/
def metCount (n : Node) (options : WalkOptions) : Nat :=
  if options.skipAbsent && !n.isPresent then 0
  else ((n.metShape? options).map (·.count)).getD 1

end Node

/-- The numbers of an index in brackets, such as `[2][0]`. -/
def subscripts (index : List Nat) : String :=
  String.join (index.map fun i => "[" ++ toString i ++ "]")

structure Element where
  node : Node
  address : Nat
  parentAddress : Nat
  index : Option (List Nat)
  path : String

namespace Element

/-- The top lies at its own offset. -/
def top (n : Node) : Element :=
  { node := n, address := n.offset, parentAddress := 0, index := none, path := n.name }

def offset (e : Element) : Nat := e.address - e.parentAddress

/-- The name with the numbers of the index behind it, such as `grid_1_0`. -/
def ident (e : Element) : String :=
  e.node.name ++ String.join ((e.index.getD []).map fun i => "_" ++ toString i)

/-- The first element of its array, or no element of one. -/
def isFirst (e : Element) : Bool := (e.index.getD []).all (· == 0)

/-- A child met as a whole. -/
def whole (parent : Element) (child : Node) : Element where
  node := child
  address := parent.address + child.offset
  parentAddress := parent.address
  index := none
  path := childPath parent.path child.name

/-- The element with a number of a child that is an array. -/
def item (parent : Element) (child : Node) (shape : ArrayShape) (linear : Nat) : Element :=
  let index := shape.unravel linear
  { node := child, address := elementAddress parent.address child.offset shape.stride linear,
    parentAddress := parent.address, index := some index,
    path := childPath parent.path child.name ++ subscripts index }

/-- The element with a number among those that a walk meets a child as. -/
def nth (options : WalkOptions) (parent : Element) (child : Node) (number : Nat) : Element :=
  match child.metShape? options with
  | some shape => parent.item child shape number
  | none => parent.whole child

/-- Whether all elements that a walk meets a child as have addresses. -/
def reaches (options : WalkOptions) (parent : Element) (child : Node) : Bool :=
  child.metCount options = 0 ||
    match child.metShape? options with
    | some shape => shape.fits parent.address child.offset
    | none => (Word.add? parent.address child.offset).isSome

/-- The elements that a walk meets a child as, in order. -/
def ofChild (options : WalkOptions) (parent : Element) (child : Node) : List Element :=
  (List.range (child.metCount options)).map (nth options parent child)

/-- The elements right below another. -/
def children (options : WalkOptions) (parent : Element) : List Element :=
  parent.node.children.flatMap (ofChild options parent)

theorem reaches_iff (options : WalkOptions) (parent : Element) (child : Node) :
    reaches options parent child = true ↔
      ∀ e ∈ ofChild options parent child, e.address < Word.limit := by
  by_cases hnone : child.metCount options = 0
  · simp [reaches, ofChild, hnone]
  · have hpos : 0 < child.metCount options := by omega
    cases hshape : child.metShape? options with
    | none =>
      simp only [reaches, ofChild, hshape, hnone, decide_false, Bool.false_or, List.forall_mem_map,
        List.mem_range, nth, whole, Word.add?, Word.isSome_ofNat?_iff]
      exact ⟨fun h _ _ => h, fun h => h 0 hpos⟩
    | some shape =>
      have hcount : child.metCount options = shape.count := by
        unfold Node.metCount at hnone ⊢
        split at hnone <;> simp_all
      rw [hcount] at hnone
      simp only [reaches, ofChild, hshape, hnone, decide_false, Bool.false_or, List.forall_mem_map,
        List.mem_range, nth, item, hcount, ArrayShape.fits_iff, elementAddress?,
        Word.isSome_ofNat?_iff]

end Element

end RegisterMap
