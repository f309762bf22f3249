import RegisterMap.Proofs.ElementIndex

/-!
The routes of a map: how an element is reached from the top, as the place of a child
among its siblings and the index of one of its elements, at every level. Routes stand
for the elements of an unrolled walk one to one, also where nodes are alike: the walk
takes every route to a node that it visits, each of them once, and in their order.
-/

namespace RegisterMap

/-- A step down to an element of a child. -/
structure Descent where
  place : Nat
  index : List Nat

/-- The steps from the top down to an element. -/
abbrev Route := List Descent

/-- Children come in the order of their declaration, the elements of one by their indices. -/
def Descent.Before (a b : Descent) : Prop :=
  a.place < b.place ∨ a.place = b.place ∧ a.index < b.index

/-- Pre-order: an element comes before all below it, and what lies below a step comes
before what lies below a later one. -/
def Route.Before : Route → Route → Prop := List.Lex Descent.Before

namespace Node

/-- A route from a node leads to another one, at some distance: the sum over its steps of
the offset of the child and of as many strides as the number of the element says. -/
inductive Leads (skip : Bool) : Node → Route → Node → Nat → Prop
  | here (n : Node) : Leads skip n [] n 0
  | down {n child m : Node} {step : Descent} {route : Route} {distance : Nat} :
      n.children[step.place]? = some child → (skip && !child.isPresent) = false →
      child.Admits step.index → Leads skip child route m distance →
      Leads skip n (step :: route) m
        (child.offset + child.linearOf step.index * child.elementStride + distance)

theorem leads_nil_iff {skip : Bool} {n m : Node} {distance : Nat} :
    n.Leads skip [] m distance ↔ m = n ∧ distance = 0 := by
  constructor
  · rintro ⟨⟩
    exact ⟨rfl, rfl⟩
  · rintro ⟨rfl, rfl⟩
    exact .here m

/-- The steps down to the elements of a child. -/
def descentsTo (skip : Bool) (child : Node) (place : Nat) : List (Node × Descent) :=
  if skip && !child.isPresent then []
  else child.elementIndices.map fun index => (child, ⟨place, index⟩)

/-- The steps down from a node, each with the child that it leads to. -/
def descents (skip : Bool) (n : Node) : List (Node × Descent) :=
  n.children.zipIdx.flatMap fun (child, place) => child.descentsTo skip place

mutual

/-- The routes from a node to itself and to all that is visited below it. -/
def routes (skip : Bool) : Node → List Route
  | { children, .. } => [] :: routesFrom skip 0 children

def routesFrom (skip : Bool) (place : Nat) : List Node → List Route
  | [] => []
  | child :: rest =>
    (child.descentsTo skip place).flatMap (fun d => (child.routes skip).map (d.2 :: ·)) ++
      routesFrom skip (place + 1) rest

end

variable {skip : Bool} {n : Node}

theorem mem_descentsTo_iff (hvalid : n.IsValid) {place : Nat} {child : Node} {step : Descent} :
    (child, step) ∈ n.descentsTo skip place ↔
      child = n ∧ step.place = place ∧ (skip && !child.isPresent) = false ∧
        child.Admits step.index := by
  unfold descentsTo
  cases hskip : skip && !n.isPresent with
  | true =>
    simp only [if_true, List.not_mem_nil, false_iff]
    rintro ⟨rfl, _, hmet, _⟩
    simp [hskip] at hmet
  | false =>
    obtain ⟨stepPlace, stepIndex⟩ := step
    simp only [Bool.false_eq_true, if_false, List.mem_map, mem_elementIndices_iff hvalid,
      Prod.mk.injEq, Descent.mk.injEq]
    constructor
    · rintro ⟨index, hindex, rfl, rfl, rfl⟩
      exact ⟨rfl, rfl, hskip, hindex⟩
    · rintro ⟨rfl, rfl, _, hindex⟩
      exact ⟨stepIndex, hindex, rfl, rfl, rfl⟩

theorem mem_descents_iff (hvalid : n.IsValid) {child : Node} {step : Descent} :
    (child, step) ∈ n.descents skip ↔
      n.children[step.place]? = some child ∧ (skip && !child.isPresent) = false ∧
        child.Admits step.index := by
  rw [descents, List.mem_flatMap]
  constructor
  · rintro ⟨⟨sibling, place⟩, hplace, hstep⟩
    rw [List.mem_zipIdx_iff_getElem?] at hplace
    have hsibling := hvalid.child (List.mem_of_getElem? hplace)
    obtain ⟨rfl, rfl, hmet, hindex⟩ := (mem_descentsTo_iff hsibling).1 hstep
    exact ⟨hplace, hmet, hindex⟩
  · rintro ⟨hplace, hmet, hindex⟩
    have hchild := hvalid.child (List.mem_of_getElem? hplace)
    exact ⟨(child, step.place), List.mem_zipIdx_iff_getElem?.2 hplace,
      (mem_descentsTo_iff hchild).2 ⟨rfl, rfl, hmet, hindex⟩⟩

/-- The steps down from a node are in order. -/
theorem pairwise_descents (hvalid : n.IsValid) :
    (n.descents skip).Pairwise fun a b => a.2.Before b.2 := by
  rw [descents, List.pairwise_flatMap]
  constructor
  · rintro ⟨child, place⟩ hplace
    rw [List.mem_zipIdx_iff_getElem?] at hplace
    have hchild := hvalid.child (List.mem_of_getElem? hplace)
    simp only [descentsTo]
    split
    · exact .nil
    · rw [List.pairwise_map]
      exact (pairwise_elementIndices hchild).imp fun hlt => Or.inr ⟨rfl, hlt⟩
  · refine List.pairwise_iff_getElem.2 fun i j hi hj hij => ?_
    rintro ⟨a, s⟩ ha ⟨b, t⟩ hb
    simp only [List.getElem_zipIdx, Nat.zero_add] at ha hb
    have hvalidAt {k : Nat} (hk : k < n.children.length) : n.children[k].IsValid :=
      hvalid.child (List.getElem_mem hk)
    rw [List.length_zipIdx] at hi hj
    obtain ⟨_, hs, _⟩ := (mem_descentsTo_iff (hvalidAt hi)).1 ha
    obtain ⟨_, ht, _⟩ := (mem_descentsTo_iff (hvalidAt hj)).1 hb
    exact Or.inl (hs ▸ ht ▸ hij)

/-- After the empty route come those that begin with each step down, in turn. -/
theorem routes_eq (skip : Bool) (n : Node) :
    n.routes skip =
      [] :: (n.descents skip).flatMap fun d => (d.1.routes skip).map (d.2 :: ·) := by
  have hto (child : Node) (place : Nat) :
      ((child.descentsTo skip place).flatMap fun d => (child.routes skip).map (d.2 :: ·)) =
        (child.descentsTo skip place).flatMap fun d => (d.1.routes skip).map (d.2 :: ·) := by
    unfold descentsTo
    split
    · rfl
    · rw [List.flatMap_map, List.flatMap_map]
  have hfrom (nodes : List Node) (place : Nat) : routesFrom skip place nodes =
      ((nodes.zipIdx place).flatMap fun (child, place) => child.descentsTo skip place).flatMap
        fun d => (d.1.routes skip).map (d.2 :: ·) := by
    induction nodes generalizing place with
    | nil => rfl
    | cons child rest ih =>
      rw [routesFrom, ih, List.zipIdx_cons, List.flatMap_cons, List.flatMap_append, hto]
  unfold descents
  rw [← hfrom]
  cases n
  rw [routes]

/-- The routes of a valid node are those that lead somewhere. -/
theorem mem_routes_iff (hvalid : n.IsValid) {route : Route} :
    route ∈ n.routes skip ↔ ∃ m distance, n.Leads skip route m distance := by
  induction n using Node.induction generalizing route with
  | step n ih =>
    rw [routes_eq, List.mem_cons, List.mem_flatMap]
    constructor
    · rintro (rfl | ⟨⟨child, step⟩, hstep, hroute⟩)
      · exact ⟨n, 0, .here n⟩
      · obtain ⟨rest, hrest, rfl⟩ := List.mem_map.1 hroute
        obtain ⟨hplace, hmet, hindex⟩ := (mem_descents_iff hvalid).1 hstep
        have hchild := List.mem_of_getElem? hplace
        obtain ⟨m, distance, hleads⟩ := (ih child hchild (hvalid.child hchild)).1 hrest
        exact ⟨m, _, .down hplace hmet hindex hleads⟩
    · rintro ⟨m, distance, hleads⟩
      cases hleads with
      | here => exact Or.inl rfl
      | @down _ child _ step rest _ hplace hmet hindex hleads =>
        have hchild := List.mem_of_getElem? hplace
        refine Or.inr ⟨(child, step), (mem_descents_iff hvalid).2 ⟨hplace, hmet, hindex⟩,
          List.mem_map_of_mem ?_⟩
        exact (ih child hchild (hvalid.child hchild)).2 ⟨m, _, hleads⟩

/-- The routes of a valid node are in order, so that none of them is taken twice. -/
theorem pairwise_routes (hvalid : n.IsValid) : (n.routes skip).Pairwise Route.Before := by
  induction n using Node.induction with
  | step n ih =>
    rw [routes_eq, List.pairwise_cons, List.pairwise_flatMap]
    refine ⟨fun route hroute => ?_, fun d hd => ?_, ?_⟩
    · obtain ⟨d, _, hroute⟩ := List.mem_flatMap.1 hroute
      obtain ⟨rest, _, rfl⟩ := List.mem_map.1 hroute
      exact .nil
    · have hchild := List.mem_of_getElem? ((mem_descents_iff hvalid).1 hd).1
      rw [List.pairwise_map]
      exact (ih d.1 hchild (hvalid.child hchild)).imp .cons
    · refine (pairwise_descents hvalid).imp fun hbefore s hs t ht => ?_
      obtain ⟨_, _, rfl⟩ := List.mem_map.1 hs
      obtain ⟨_, _, rfl⟩ := List.mem_map.1 ht
      exact .rel hbefore

end Node

namespace Element

/-- An element where a route leads from another one: its address is as far away as the
steps of the route say, and its index is that of the last step. -/
def LiesAt (skip : Bool) (start : Element) (route : Route) (e : Element) : Prop :=
  ∃ distance, start.node.Leads skip route e.node distance ∧
    e.address = start.address + distance ∧
    (e.index = match route.getLast? with
      | none => start.index
      | some step => e.node.array.map fun _ => step.index)

/-- An element right below another one, at the end of a step. -/
structure Below (parent : Element) (d : Node × Descent) (e : Element) : Prop where
  node_eq : e.node = d.1
  index_eq : e.index = d.1.array.map fun _ => d.2.index
  address_eq :
    e.address = parent.address + d.1.offset + d.1.linearOf d.2.index * d.1.elementStride

theorem liesAt_self (skip : Bool) (e : Element) : LiesAt skip e [] e := ⟨0, .here e.node, rfl, rfl⟩

theorem Below.liesAt {skip : Bool} {parent c e : Element} {d : Node × Descent}
    (hvalid : parent.node.IsValid) (h : Below parent d c) (hd : d ∈ parent.node.descents skip)
    {route : Route} (hlies : LiesAt skip c route e) : LiesAt skip parent (d.2 :: route) e := by
  obtain ⟨hplace, hmet, hindex⟩ := (Node.mem_descents_iff hvalid).1 hd
  obtain ⟨distance, hleads, haddress, he⟩ := hlies
  refine ⟨_, .down hplace hmet hindex (h.node_eq ▸ hleads), ?_, ?_⟩
  · rw [haddress, h.address_eq]
    omega
  · cases route with
    | nil =>
      obtain ⟨hnode, _⟩ := Node.leads_nil_iff.1 hleads
      rw [hnode, h.node_eq]
      exact he.trans h.index_eq
    | cons step rest =>
      rw [List.getLast?_cons_cons]
      exact he

variable {options : WalkOptions}

/-- The elements of a child lie at the ends of the steps down to them. -/
theorem forall₂_ofChild (parent : Element) {child : Node} (hvalid : child.IsValid) (place : Nat) :
    List.Forall₂ (Below parent) (child.descentsTo options.skipAbsent place)
      (parent.ofChild options.unrolled child) := by
  cases hskip : child.isSkipped options with
  | true =>
    have hskipped : child.isSkipped options.unrolled = true := hskip
    have hnot : (options.skipAbsent && !child.isPresent) = true := hskip
    rw [ofChild_of_skipped hskipped, Node.descentsTo, if_pos hnot]
    exact .nil
  | false =>
    have hmet : ¬ (options.skipAbsent && !child.isPresent) = true := ne_true_of_eq_false hskip
    rw [Node.descentsTo, if_neg hmet, Node.elementIndices, ofChild, metCount_unrolled hskip,
      List.map_map, List.forall₂_map_left_iff, List.forall₂_map_right_iff, List.forall₂_same]
    intro linear hlinear
    rw [List.mem_range] at hlinear
    refine ⟨nth_node _ _ _ _, ?_, ?_⟩
    · rw [index_nth_unrolled]
      show _ = child.array.map fun _ => child.elementIndex linear
      unfold Node.elementIndex
      cases child.array <;> rfl
    · rw [address_nth_unrolled]
      simp only [Function.comp, Node.linearOf_elementIndex hvalid hlinear]

/-- The elements right below another one lie at the ends of the steps down from it. -/
theorem forall₂_children {parent : Element} (hvalid : parent.node.IsValid) :
    List.Forall₂ (Below parent) (parent.node.descents options.skipAbsent)
      (parent.children options.unrolled) := by
  have hplaces : parent.children options.unrolled =
      parent.node.children.zipIdx.flatMap fun p => parent.ofChild options.unrolled p.1 := by
    rw [children, ← List.flatMap_map Prod.fst, List.zipIdx_map_fst]
  rw [hplaces, Node.descents]
  refine List.rel_flatMap (R := fun a b => a = b ∧ a ∈ parent.node.children.zipIdx)
    (List.forall₂_same.2 fun _ h => ⟨rfl, h⟩) ?_
  rintro ⟨child, place⟩ _ ⟨rfl, hplace⟩
  rw [List.mem_zipIdx_iff_getElem?] at hplace
  exact parent.forall₂_ofChild (hvalid.child (List.mem_of_getElem? hplace)) place

/-- The elements of an unrolled walk lie where the routes lead, one for each route. -/
theorem forall₂_preorder {n : Node} (hvalid : n.IsValid) {e : Element} (he : e.node = n) :
    List.Forall₂ (LiesAt options.skipAbsent e) (n.routes options.skipAbsent)
      (preorder options.unrolled n e) := by
  induction n using Node.induction generalizing e with
  | step n ih =>
    subst he
    rw [Node.routes_eq, preorder_eq]
    refine .cons (liesAt_self _ e) ?_
    refine List.rel_flatMap (R := fun d c => d ∈ e.node.descents options.skipAbsent ∧ Below e d c)
      ((List.forall₂_and_left _ _).2 ⟨fun _ h => h, forall₂_children hvalid⟩) ?_
    rintro d c ⟨hd, hc⟩
    have hchild := List.mem_of_getElem? ((Node.mem_descents_iff hvalid).1 hd).1
    have hrest := ih d.1 hchild (hvalid.child hchild) hc.node_eq
    rw [List.forall₂_map_left_iff]
    simp only [hc.node_eq]
    exact hrest.imp fun _ _ hlies => hc.liesAt hvalid hd hlies

end Element

end RegisterMap
