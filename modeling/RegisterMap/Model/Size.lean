import RegisterMap.Model.Array

/-!
Sizes in bytes. A size that is not given follows from the contents: a register
from its width, a memory from its words, and a container reaches as far as the
farthest end of its children.
-/

namespace RegisterMap.Node

/-- The bytes that all elements of an instance span, from the size of one. -/
def span? (array : Option ArrayShape) (size : Nat) : Option Nat :=
  match array with
  | none => some size
  | some a => do
    let count ← Word.product? a.dimensions
    let between ← Word.mul? a.stride (count - 1)
    Word.add? between size

mutual

/-- The size of one element. -/
def size? : Node → Option Nat
  | n@{ size, kind, children, .. } =>
    match size, kind with
    | some given, _ => some given
    | none, .reg => some (n.regWidth / 8)
    | none, .mem => Word.mul? (n.memEntries?.getD 0) ((n.memWidth + 7) / 8)
    | none, .addrmap => extent? children
    | none, .regfile => extent? children

/-- The farthest end of the nodes of a list, zero for none. -/
def extent? : List Node → Option Nat
  | [] => some 0
  | child :: rest => do
    let size ← child.size?
    let span ← span? child.array size
    let finish ← Word.add? child.offset span
    let others ← extent? rest
    some (max finish others)

end

/-- The size of all elements together. -/
def totalSize? (n : Node) : Option Nat := n.size?.bind (span? n.array)

/-- The range that a node is reported with: the stride of an array, which takes
in the padding between its elements, and else the size. -/
def rangeSize? (n : Node) : Option Nat :=
  match n.array with
  | some a => some a.stride
  | none => n.size?

end RegisterMap.Node
