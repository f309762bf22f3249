import Mathlib.Data.List.Basic
import Mathlib.Tactic.Common
import RegisterMap.Explosion
import RegisterMap.Proofs.Walk

/-!
The occurrences of a walk: every element together with the elements it lies in.
The occurrences of a map are listed in pre-order, as its elements are, and what
lies below one of them depends on its element alone.
-/

namespace RegisterMap

namespace Explosion

/-- How far below the top the address blocks of a map lie. -/
def depth : Explosion → Nat
  | wrap => 0
  | explode => 1

/-- A top that is split is an address map whose children can all be blocks. -/
theorem decide_eq_explode {top : Node} (h : decide top = .explode) :
    top.kind = .addrmap ∧ ∀ c ∈ top.children, isBlockable c = true := by
  unfold decide at h
  split at h
  case h_1 hkind =>
    split at h
    case isTrue hall =>
      rw [Bool.and_eq_true, List.all_eq_true] at hall
      exact ⟨hkind, hall.2⟩
    case isFalse => cases h
  case h_2 => cases h

theorem isBlockable_iff (n : Node) :
    isBlockable n = true ↔ n.kind.canBeTop = true ∧ n.array = none := by
  unfold isBlockable Kind.canBeTop Node.isArray
  cases n.kind <;> simp

end Explosion

/-- An element with the elements it lies in, the innermost first. -/
structure Occurrence where
  element : Element
  above : List Element

namespace Occurrence

def top (n : Node) : Occurrence := ⟨.top n, []⟩

/-- An element right below an occurrence. -/
def inside (o : Occurrence) (e : Element) : Occurrence := ⟨e, o.element :: o.above⟩

@[simp]
theorem element_inside (o : Occurrence) (e : Element) : (o.inside e).element = e := rfl

/-- The occurrences right below another. -/
def children (options : WalkOptions) (o : Occurrence) : List Occurrence :=
  (o.element.children options).map o.inside

mutual

/-- An occurrence of a node and all below it. -/
def preorder (options : WalkOptions) : Node → Occurrence → List Occurrence
  | { children, .. }, o => o :: preorderAll options o children

/-- All occurrences that are met from the children of an occurrence downwards. -/
def preorderAll (options : WalkOptions) (o : Occurrence) : List Node → List Occurrence
  | [] => []
  | child :: rest =>
    (o.element.ofChild options child).flatMap (fun e => preorder options child (o.inside e)) ++
      preorderAll options o rest

end

/-- An occurrence and all below it. -/
def walk (options : WalkOptions) (o : Occurrence) : List Occurrence :=
  preorder options o.element.node o

/-- All occurrences of a map. -/
def all (options : WalkOptions) (n : Node) : List Occurrence := walk options (top n)

theorem preorderAll_eq (options : WalkOptions) (o : Occurrence) (nodes : List Node) :
    preorderAll options o nodes =
      (nodes.flatMap (o.element.ofChild options)).flatMap fun e => (o.inside e).walk options := by
  induction nodes with
  | nil => simp [preorderAll]
  | cons child rest ih =>
    rw [preorderAll, ih, List.flatMap_cons, List.flatMap_append]
    congr 1
    apply List.flatMap_congr
    intro e he
    rw [walk, inside, Element.node_of_mem_ofChild he]

theorem walk_eq (options : WalkOptions) (o : Occurrence) :
    o.walk options = o :: (o.children options).flatMap (walk options) := by
  have hnode : ∀ n : Node, preorder options n o = o :: preorderAll options o n.children := by
    intro n
    cases n
    rw [preorder]
  rw [walk, hnode, preorderAll_eq, children, Element.children, List.flatMap_map]

theorem mem_walk_self (options : WalkOptions) (o : Occurrence) : o ∈ o.walk options := by
  rw [walk_eq]
  exact List.mem_cons_self

theorem mem_walk_of_child {options : WalkOptions} {o q : Occurrence} {e : Element}
    (he : e ∈ o.element.children options) (hq : q ∈ (o.inside e).walk options) :
    q ∈ o.walk options := by
  rw [walk_eq]
  exact List.mem_cons_of_mem o
    (List.mem_flatMap.2 ⟨o.inside e, List.mem_map.2 ⟨e, he, rfl⟩, hq⟩)

theorem mem_walk_cases {options : WalkOptions} {o q : Occurrence} (h : q ∈ o.walk options) :
    q = o ∨ ∃ c ∈ o.element.children options, q ∈ (o.inside c).walk options := by
  rw [walk_eq, children, List.flatMap_map, List.mem_cons, List.mem_flatMap] at h
  exact h

theorem walk_of_childless {options : WalkOptions} {o : Occurrence}
    (h : o.element.node.children = []) : o.walk options = [o] := by
  rw [walk_eq, children, Element.children, h]
  rfl

/-- Induction from the occurrences right below an occurrence to the occurrence. -/
theorem induction {P : Occurrence → Prop} (options : WalkOptions)
    (step : ∀ o : Occurrence, (∀ c ∈ o.element.children options, P (o.inside c)) → P o)
    (o : Occurrence) : P o := by
  have hall : ∀ e : Element, ∀ above : List Element, P ⟨e, above⟩ := by
    intro e
    induction e using Element.induction options with
    | step e ih => exact fun above => step ⟨e, above⟩ fun c hc => ih c hc (e :: above)
  exact hall o.element o.above

/-- The occurrences of a walk are its elements, each with what it lies in. -/
theorem map_element_walk (options : WalkOptions) (o : Occurrence) :
    (o.walk options).map element = Element.preorder options o.element.node o.element := by
  induction o using Occurrence.induction options with
  | step o ih =>
    rw [walk_eq, Element.preorder_eq, List.map_cons, children, List.flatMap_map,
      List.map_flatMap]
    congr 1
    apply List.flatMap_congr
    intro c hc
    exact ih c hc

theorem map_element_all (options : WalkOptions) (n : Node) :
    (all options n).map element = Element.allBelow options n :=
  map_element_walk options (top n)

/-- Nothing lies further up than the occurrence that it is met from. -/
theorem length_above_le_of_mem_walk {options : WalkOptions} {o q : Occurrence}
    (h : q ∈ o.walk options) : o.above.length ≤ q.above.length := by
  induction o using Occurrence.induction options with
  | step o ih =>
    rcases mem_walk_cases h with rfl | ⟨c, hc, hq⟩
    · exact Nat.le_refl _
    · exact Nat.le_of_succ_le (ih c hc hq)

/-- What lies right below an occurrence of a walk is one of the walk too. -/
theorem inside_mem_walk {options : WalkOptions} {o q : Occurrence} {e : Element}
    (h : q ∈ o.walk options) (he : e ∈ q.element.children options) :
    q.inside e ∈ o.walk options := by
  induction o using Occurrence.induction options with
  | step o ih =>
    rcases mem_walk_cases h with rfl | ⟨c, hc, hq⟩
    · exact mem_walk_of_child he (mem_walk_self options _)
    · exact mem_walk_of_child hc (ih c hc hq)

/-- An occurrence of a walk is where the walk starts, or right below another one. -/
theorem eq_or_inside_of_mem_walk {options : WalkOptions} {o q : Occurrence}
    (h : q ∈ o.walk options) :
    q = o ∨ ∃ r ∈ o.walk options, ∃ e ∈ r.element.children options, q = r.inside e := by
  induction o using Occurrence.induction options with
  | step o ih =>
    rcases mem_walk_cases h with rfl | ⟨c, hc, hq⟩
    · exact Or.inl rfl
    · rcases ih c hc hq with rfl | ⟨r, hr, e, he, rfl⟩
      · exact Or.inr ⟨o, mem_walk_self options o, c, hc, rfl⟩
      · exact Or.inr ⟨r, mem_walk_of_child hc hr, e, he, rfl⟩

/-! Some occurrences of a walk. -/

/-- The occurrences from one downwards that are of some kind. -/
def select (p : Occurrence → Bool) (options : WalkOptions) (o : Occurrence) : List Occurrence :=
  (o.walk options).filter p

theorem select_of_not {p : Occurrence → Bool} (options : WalkOptions) {o : Occurrence}
    (h : p o = false) : o.select p options = (o.children options).flatMap (select p options) := by
  rw [select, walk_eq, List.filter_cons_of_neg (by simp [h]), List.filter_flatMap]
  rfl

theorem select_of_childless {p : Occurrence → Bool} (options : WalkOptions) {o : Occurrence}
    (h : o.element.node.children = []) : o.select p options = if p o then [o] else [] := by
  rw [select, walk_of_childless h, List.filter_singleton, cond_eq_ite]

/-- The blocks of a split top are no arrays, so that it makes no difference to them whether
a walk unrolls. -/
theorem select_of_explode {p : Occurrence → Bool} {n : Node} (h : Explosion.decide n = .explode)
    (hp : p (top n) = false) (options : WalkOptions) :
    (top n).select p options.unrolled =
      ((Element.top n).children options).flatMap fun c =>
        ((top n).inside c).select p options.unrolled := by
  obtain ⟨_, hblockable⟩ := Explosion.decide_eq_explode h
  have hchildren : (Element.top n).children options.unrolled =
      (Element.top n).children options := by
    apply List.flatMap_congr
    intro c hc
    exact Element.ofChild_unrolled ((Explosion.isBlockable_iff c).1 (hblockable c hc)).2 _
  rw [select_of_not _ hp, children, List.flatMap_map, ← hchildren]
  rfl

/-- Whether an element is met as an address block. -/
def isBlock (explosion : Explosion) (o : Occurrence) : Bool := o.above.length == explosion.depth

/-- A register or a memory. -/
def isLeaf (o : Occurrence) : Bool :=
  match o.element.node.kind with
  | .addrmap | .regfile => false
  | .reg | .mem => true

theorem isLeaf_eq_false_iff (o : Occurrence) :
    o.isLeaf = false ↔ o.element.node.kind = .addrmap ∨ o.element.node.kind = .regfile := by
  unfold isLeaf
  cases o.element.node.kind <;> simp

end Occurrence

/-! Where an occurrence is found by its names. -/

/-- A name with its subscripts, none where it is no element of an array. -/
abbrev Instance := String × List Nat

/-- An element as an instance, under another name. -/
def Element.toInstance (rename : String → String) (e : Element) : Instance :=
  (rename e.node.name, e.index.getD [])

namespace Occurrence

variable (rename : String → String) (explosion : Explosion)

/-- The instances that lead to an occurrence. A split top is none of them: what is
built for it stands for the map as a whole. -/
def instances (o : Occurrence) : List Instance :=
  ((o.element :: o.above).reverse.drop explosion.depth).map (Element.toInstance rename)

/-- An occurrence with its address. -/
def placement (o : Occurrence) : List Instance × Nat :=
  (o.instances rename explosion, o.element.address)

theorem instances_inside (o : Occurrence) (e : Element) :
    (o.inside e).instances rename explosion =
      o.instances rename explosion ++ [e.toInstance rename] := by
  have hdepth : explosion.depth ≤ (o.element :: o.above).reverse.length := by
    cases explosion <;> simp [Explosion.depth]
  have hpath : ((o.inside e).element :: (o.inside e).above).reverse =
      (o.element :: o.above).reverse ++ [e] := by
    simp [inside]
  rw [instances, instances, hpath, List.drop_append_of_le_length hdepth, List.map_append]
  rfl

/-- The occurrences of some kind that are met from a child of an occurrence downwards,
when every element of an array is taken by itself. -/
def placements (p : Occurrence → Bool) (options : WalkOptions) (child : Node) (o : Occurrence) :
    List (List Instance × Nat) :=
  (o.element.ofChild options.unrolled child).flatMap fun e =>
    ((o.inside e).select p options.unrolled).map (placement rename explosion)

theorem placements_of_skipped (p : Occurrence → Bool) {options : WalkOptions} {child : Node}
    (h : child.isSkipped options = true) (o : Occurrence) :
    placements rename explosion p options child o = [] := by
  have hskipped : child.isSkipped options.unrolled = true := h
  rw [placements, Element.ofChild_of_skipped hskipped, List.flatMap_nil]

/-- What is met from an occurrence downwards is what is met from its children. -/
theorem placements_select {p : Occurrence → Bool} (options : WalkOptions) {o : Occurrence}
    (h : p o = false) :
    (o.select p options.unrolled).map (placement rename explosion) =
      o.element.node.children.flatMap fun child =>
        placements rename explosion p options child o := by
  rw [select_of_not _ h, children, Element.children, List.flatMap_map, List.map_flatMap,
    List.flatMap_assoc]
  rfl

end Occurrence

namespace Node

/-- How many elements a node has, one where it is no array. -/
def elementCount (n : Node) : Nat := (n.array.map (·.count)).getD 1

/-- The index of the element with a number, empty where the node is no array. -/
def elementIndex (n : Node) (linear : Nat) : List Nat :=
  (n.array.map (·.unravel linear)).getD []

/-- The distance between neighbouring elements. -/
def elementStride (n : Node) : Nat := (n.array.map (·.stride)).getD 0

end Node

namespace Element

variable {options : WalkOptions}

theorem metCount_unrolled {n : Node} (hmet : n.isSkipped options = false) :
    n.metCount options.unrolled = n.elementCount := by
  unfold Node.isSkipped at hmet
  simp only [Node.metCount, Node.metShape?, WalkOptions.unrolled, hmet, Bool.false_eq_true,
    if_true, if_false, Node.elementCount]

theorem index_nth_unrolled (parent : Element) (n : Node) (linear : Nat) :
    (nth options.unrolled parent n linear).index = n.array.map (·.unravel linear) := by
  cases harray : n.array <;> simp [nth, Node.metShape?, WalkOptions.unrolled, whole, item, harray]

theorem address_nth_unrolled (parent : Element) (n : Node) (linear : Nat) :
    (nth options.unrolled parent n linear).address =
      parent.address + n.offset + linear * n.elementStride := by
  cases harray : n.array <;>
    simp [nth, Node.metShape?, WalkOptions.unrolled, whole, item, Node.elementStride,
      elementAddress, harray]

end Element

/-- The elements of a child one by one, when every element of an array is met by itself. -/
theorem Occurrence.flatMap_ofChild {options : WalkOptions} {n : Node}
    (hmet : n.isSkipped options = false) (rename : String → String) (explosion : Explosion)
    (o : Occurrence) (f : List Instance → Nat → List α) :
    ((o.element.ofChild options.unrolled n).flatMap fun e =>
        f ((o.inside e).instances rename explosion) e.address) =
      (List.range n.elementCount).flatMap fun linear =>
        f (o.instances rename explosion ++ [(rename n.name, n.elementIndex linear)])
          (o.element.address + n.offset + linear * n.elementStride) := by
  have hinstance (linear : Nat) : (o.element.nth options.unrolled n linear).toInstance rename =
      (rename n.name, n.elementIndex linear) := by
    rw [Element.toInstance, Element.nth_node, Element.index_nth_unrolled, Node.elementIndex]
  rw [Element.ofChild, Element.metCount_unrolled hmet, List.flatMap_map]
  simp only [instances_inside, hinstance, Element.address_nth_unrolled]

end RegisterMap
