import RegisterMap.Model.Node

/-!
Whether the top of a map is split into address blocks. An address map whose
children are all single address maps or memories explodes, each child becoming
a block; anything else is one block of its own.
-/

namespace RegisterMap

inductive Explosion where
  | explode
  | wrap
deriving DecidableEq, Repr

namespace Explosion

def word : Explosion → String
  | explode => "explode"
  | wrap => "wrap"

/-- The decision as a message names it. -/
def title : Explosion → String
  | explode => "Explode"
  | wrap => "Wrap"

/-- Whether a child can be a block by itself. -/
def isBlockable (n : Node) : Bool :=
  match n.kind with
  | .addrmap | .mem => !n.isArray
  | _ => false

def decide (top : Node) : Explosion :=
  match top.kind with
  | .addrmap => if !top.children.isEmpty && top.children.all isBlockable then explode else wrap
  | _ => wrap

end Explosion

end RegisterMap
