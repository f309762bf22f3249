import RegisterMap.Walk.Element

/-!
All elements of a walk in pre-order: every element comes before those below it,
and children come in the order of their declaration.
-/

namespace RegisterMap.Element

mutual

/-- An element of a node and all below it. -/
def preorder (options : WalkOptions) : Node → Element → List Element
  | { children, .. }, e => e :: preorderAll options e children

/-- All that is met from the children of an element downwards. -/
def preorderAll (options : WalkOptions) (parent : Element) : List Node → List Element
  | [] => []
  | child :: rest =>
    (parent.ofChild options child).flatMap (fun e => preorder options child e) ++
      preorderAll options parent rest

end

/-- All elements of the walk of a map. -/
def allBelow (options : WalkOptions) (top : Node) : List Element :=
  preorder options top (.top top)

end RegisterMap.Element
