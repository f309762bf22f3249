import RegisterMap.Proofs.AddressSpace
import RegisterMap.Proofs.Valid

/-!
The nodes that a walk visits. A walk passes over a node that is not present and over
all below it; whether it meets an array as a whole or element by element, it gets to
the same nodes of a valid map.
-/

namespace RegisterMap

namespace Node

mutual

/-- A node and all that is visited below it: every node, or where absent nodes are
skipped, every node that is present and lies in present ones only. -/
def visited (skip : Bool) : Node → List Node
  | n@{ children, .. } => n :: visitedAll skip children

def visitedAll (skip : Bool) : List Node → List Node
  | [] => []
  | child :: rest =>
    (if skip && !child.isPresent then [] else child.visited skip) ++ visitedAll skip rest

end

/-- All that is visited below a node. -/
def visitedBelow (skip : Bool) (n : Node) : List Node := visitedAll skip n.children

theorem visited_eq (skip : Bool) (n : Node) : n.visited skip = n :: n.visitedBelow skip := by
  unfold visitedBelow
  cases n
  rw [visited]

theorem mem_visited_self (skip : Bool) (n : Node) : n ∈ n.visited skip := by
  rw [visited_eq]
  exact List.mem_cons_self

theorem mem_visited_of_below {skip : Bool} {n m : Node} (h : m ∈ n.visitedBelow skip) :
    m ∈ n.visited skip := by
  rw [visited_eq]
  exact List.mem_cons_of_mem n h

theorem mem_visitedBelow_iff {skip : Bool} {n m : Node} :
    m ∈ n.visitedBelow skip ↔
      ∃ child ∈ n.children, (skip && !child.isPresent) = false ∧ m ∈ child.visited skip := by
  have hall (nodes : List Node) : m ∈ visitedAll skip nodes ↔
      ∃ child ∈ nodes, (skip && !child.isPresent) = false ∧ m ∈ child.visited skip := by
    induction nodes with
    | nil => simp [visitedAll]
    | cons child rest ih =>
      rw [visitedAll, List.mem_append, ih]
      simp only [List.mem_cons, exists_eq_or_imp]
      cases skip && !child.isPresent <;> simp
  exact hall n.children

theorem visitedBelow_of_childless (skip : Bool) {n : Node} (h : n.children = []) :
    n.visitedBelow skip = [] := by
  rw [visitedBelow, h, visitedAll]

/-- Nothing else than the tree is visited. -/
theorem mem_subtree_of_mem_visited {skip : Bool} {n m : Node} (h : m ∈ n.visited skip) :
    m ∈ n.subtree := by
  induction n using Node.induction with
  | step n ih =>
    rw [visited_eq, List.mem_cons, mem_visitedBelow_iff] at h
    rcases h with rfl | ⟨child, hchild, _, hm⟩
    · exact m.mem_subtree_self
    · exact mem_subtree_of_child hchild (ih child hchild hm)

end Node

namespace Element

variable {options : WalkOptions}

/-- A child of a valid node is met unless it is skipped. -/
theorem exists_mem_ofChild {parent : Element} {child : Node} (h : child.IsValid)
    (hmet : child.isSkipped options = false) : ∃ c, c ∈ parent.ofChild options child := by
  have hcount : 0 < child.metCount options := by
    unfold Node.isSkipped at hmet
    unfold Node.metCount Node.metShape?
    rw [hmet, if_neg Bool.false_ne_true]
    cases harray : child.array with
    | none => simp
    | some a =>
      have hpos := (h.array_isSound harray).count_pos
      cases options.unroll <;> simp [hpos]
  exact ⟨_, List.mem_map_of_mem (List.mem_range.2 hcount)⟩

theorem mem_visitedBelow_of_child {parent c : Element} (hc : c ∈ parent.children options)
    {m : Node} (hm : m ∈ c.node.visited options.skipAbsent) :
    m ∈ parent.node.visitedBelow options.skipAbsent :=
  Node.mem_visitedBelow_iff.2
    ⟨c.node, node_mem_of_mem_children hc, isSkipped_of_mem_children hc, hm⟩

/-- What holds of all that is visited from the elements below an element on holds of all
that is visited below its node. -/
theorem forall_visitedBelow {e : Element} (h : e.node.IsValid) {P : Node → Prop}
    (hchildren : ∀ c ∈ e.children options, ∀ m ∈ c.node.visited options.skipAbsent, P m) :
    ∀ m ∈ e.node.visitedBelow options.skipAbsent, P m := by
  intro m hm
  obtain ⟨child, hchild, hmet, hm⟩ := Node.mem_visitedBelow_iff.1 hm
  obtain ⟨c, hof⟩ := e.exists_mem_ofChild (h.child hchild) hmet
  have hc : c ∈ e.children options := List.mem_flatMap.2 ⟨child, hchild, hof⟩
  exact hchildren c hc m (by rwa [node_of_mem_ofChild hof])

/-- What is visited below a node is visited from the elements below an element of it on. -/
theorem mem_visitedBelow_iff {e : Element} (h : e.node.IsValid) {m : Node} :
    m ∈ e.node.visitedBelow options.skipAbsent ↔
      ∃ c ∈ e.children options, m ∈ c.node.visited options.skipAbsent := by
  constructor
  · exact fun hm => forall_visitedBelow h
      (P := fun m => ∃ c ∈ e.children options, m ∈ c.node.visited options.skipAbsent)
      (fun c hc m hm => ⟨c, hc, hm⟩) m hm
  · rintro ⟨c, hc, hm⟩
    exact mem_visitedBelow_of_child hc hm

/-- The nodes of a walk are visited. -/
theorem node_mem_visited {e q : Element} (h : q ∈ preorder options e.node e) :
    q.node ∈ e.node.visited options.skipAbsent := by
  induction e using Element.induction options with
  | step e ih =>
    rw [preorder_eq] at h
    rcases List.mem_cons.1 h with rfl | h
    · exact Node.mem_visited_self _ _
    · obtain ⟨c, hc, hq⟩ := List.mem_flatMap.1 h
      exact Node.mem_visited_of_below (mem_visitedBelow_of_child hc (ih c hc hq))

end Element

end RegisterMap
