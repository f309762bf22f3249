import RegisterMap.Proofs.AddressSpace
import RegisterMap.Proofs.Produce

/-!
A map without what is absent. A walk that passes over absent nodes and fields meets the same
elements in the pruned map when it passes over nothing, and sees the contents of a node only
through what it meets. So an emitter that does not look at these contents itself cannot tell
the two walks apart, and whole exports end in the same way, with the same messages and files.
-/

namespace RegisterMap

namespace Node

mutual

/-- A node without the nodes and fields below it that are not present. -/
def pruned : Node → Node
  | n@{ children, fields, .. } =>
    { n with children := prunedAll children, fields := fields.filter Field.isPresent }

def prunedAll : List Node → List Node
  | [] => []
  | child :: rest =>
    if child.isPresent then child.pruned :: prunedAll rest else prunedAll rest

end

theorem prunedAll_eq (nodes : List Node) :
    prunedAll nodes = (nodes.filter isPresent).map pruned := by
  induction nodes with
  | nil => rfl
  | cons child rest ih =>
    rw [prunedAll, ih]
    by_cases h : child.isPresent <;> simp [h]

/-- Only the contents of a node change. -/
theorem pruned_eq (n : Node) :
    n.pruned = { n with
      children := (n.children.filter isPresent).map pruned
      fields := n.fields.filter Field.isPresent } := by
  cases n
  rw [pruned, prunedAll_eq]

@[simp]
theorem children_pruned (n : Node) :
    n.pruned.children = (n.children.filter isPresent).map pruned := by
  rw [pruned_eq]

@[simp]
theorem fields_pruned (n : Node) : n.pruned.fields = n.fields.filter Field.isPresent := by
  rw [pruned_eq]

@[simp]
theorem name_pruned (n : Node) : n.pruned.name = n.name := by
  rw [pruned_eq]

@[simp]
theorem kind_pruned (n : Node) : n.pruned.kind = n.kind := by
  rw [pruned_eq]

@[simp]
theorem offset_pruned (n : Node) : n.pruned.offset = n.offset := by
  rw [pruned_eq]

@[simp]
theorem array_pruned (n : Node) : n.pruned.array = n.array := by
  rw [pruned_eq]

/-! A valid map stays valid. -/

theorem checkFields_filter {path : String} {width : Nat} {fields : List Field}
    (h : checkFields path width fields = .ok ()) (p : Field → Bool) :
    checkFields path width (fields.filter p) = .ok () := by
  induction fields with
  | nil => rfl
  | cons f rest ih =>
    rw [checkFields, Except.andThen_eq_ok_iff] at h
    rw [List.filter_cons]
    split
    · rw [checkFields, Except.andThen_eq_ok_iff]
      exact ⟨h.1, ih h.2⟩
    · exact ih h.2

/-- Fields that remain are in range and share no bits, as all of them do. -/
theorem checkRegister_pruned {n : Node} {path : String} (h : n.checkRegister path = .ok ()) :
    n.pruned.checkRegister path = .ok () := by
  obtain ⟨hchildren, hregWidth, haccessWidth, hfields, hapart⟩ := checkRegister_eq_ok_iff.1 h
  rw [pruned_eq]
  refine checkRegister_eq_ok_iff.2 ⟨by simp [hchildren], hregWidth, haccessWidth, ?_, ?_⟩
  · exact checkFields_filter hfields _
  · exact hapart.filter Field.isPresent

theorem validateAt_pruned (n : Node) : ∀ {path : String}, n.validateAt path = .ok () →
    n.pruned.validateAt path = .ok () := by
  induction n using Node.induction with
  | step n ih =>
    intro path h
    rw [validateAt_eq, Except.andThen_eq_ok_iff] at h
    obtain ⟨harray, hkind⟩ := h
    have hsameArray : n.pruned.checkArray path = .ok () := by
      rw [pruned_eq]
      exact harray
    have hcontainer (h : n.checkNoFields path = .ok () ∧ validateAll path n.children = .ok ()) :
        n.pruned.checkNoFields path = .ok () ∧ validateAll path n.pruned.children = .ok () := by
      obtain ⟨hfields, hchildren⟩ := h
      refine ⟨?_, ?_⟩
      · unfold checkNoFields at hfields ⊢
        cases hn : n.fields with
        | nil => simp [hn]
        | cons f rest => simp [hn] at hfields
      · rw [validateAll_eq_ok_iff] at hchildren ⊢
        intro c hc
        rw [children_pruned] at hc
        obtain ⟨child, hchild, rfl⟩ := List.mem_map.1 hc
        have hmem := (List.mem_filter.1 hchild).1
        rw [name_pruned]
        exact ih child hmem (hchildren child hmem)
    rw [validateAt_eq, Except.andThen_eq_ok_iff, kind_pruned]
    refine ⟨hsameArray, ?_⟩
    cases hn : n.kind with
    | addrmap =>
      rw [hn, Except.andThen_eq_ok_iff] at hkind
      exact Except.andThen_eq_ok_iff.2 (hcontainer hkind)
    | regfile =>
      rw [hn, Except.andThen_eq_ok_iff] at hkind
      exact Except.andThen_eq_ok_iff.2 (hcontainer hkind)
    | reg =>
      rw [hn] at hkind
      exact checkRegister_pruned hkind
    | mem =>
      rw [hn] at hkind
      obtain ⟨hchildren, hfields, hwidth, haccess⟩ := checkMemory_eq_ok_iff.1 hkind
      rw [pruned_eq]
      exact checkMemory_eq_ok_iff.2 ⟨by simp [hchildren], by simp [hfields], hwidth, haccess⟩

theorem validate_pruned {n : Node} (h : n.validate = .ok ()) : n.pruned.validate = .ok () := by
  unfold validate at h ⊢
  rw [name_pruned]
  exact n.validateAt_pruned h

/-! Sizes that do not follow from contents. -/

/-- A container that says how large it is. -/
def IsSized (n : Node) : Prop :=
  n.kind = .addrmap ∨ n.kind = .regfile → n.size.isSome = true

instance (n : Node) : Decidable n.IsSized :=
  inferInstanceAs (Decidable (_ ∨ _ → _))

theorem isSized_of_memory {n : Node} (h : n.kind = .mem) : n.IsSized := by
  simp [IsSized, h]

theorem size?_pruned {n : Node} (h : n.IsSized) : n.pruned.size? = n.size? := by
  rw [pruned_eq]
  unfold IsSized at h
  cases n with
  | mk name kind offset size array properties children fields source =>
    cases size with
    | some given => simp [size?]
    | none =>
      cases kind with
      | addrmap => simp at h
      | regfile => simp at h
      | reg => simp [size?, regWidth]
      | mem => simp [size?, memEntries?, memWidth, memWidth?]

theorem rangeSize?_pruned {n : Node} (h : n.IsSized) : n.pruned.rangeSize? = n.rangeSize? := by
  unfold rangeSize?
  rw [array_pruned, size?_pruned h]

end Node

/-! The elements of a pruned map. -/

/-- A walk that passes over nothing. -/
def WalkOptions.complete (options : WalkOptions) : WalkOptions :=
  { options with skipAbsent := false }

namespace Element

variable {options : WalkOptions}

def pruned (e : Element) : Element := { e with node := e.node.pruned }

/-- Only the contents of the node change. -/
theorem pruned_eq (e : Element) :
    e.pruned = { e with node := { e.node with
      children := (e.node.children.filter Node.isPresent).map Node.pruned
      fields := e.node.fields.filter Field.isPresent } } := by
  rw [pruned, e.node.pruned_eq]

theorem top_pruned (n : Node) : Element.top n.pruned = (Element.top n).pruned := by
  simp [top, pruned]

theorem nth_pruned (options : WalkOptions) (parent : Element) (child : Node) (number : Nat) :
    nth options.complete parent.pruned child.pruned number =
      (nth options parent child number).pruned := by
  have hshape : child.pruned.metShape? options.complete = child.metShape? options := by
    simp [Node.metShape?, WalkOptions.complete]
  unfold nth
  rw [hshape]
  cases child.metShape? options <;> simp [whole, item, pruned]

theorem ofChild_pruned {child : Node} (h : child.isPresent = true) (parent : Element) :
    parent.pruned.ofChild options.complete child.pruned =
      (parent.ofChild options child).map pruned := by
  have hcount : child.pruned.metCount options.complete = child.metCount options := by
    simp [Node.metCount, Node.metShape?, WalkOptions.complete, h]
  rw [ofChild, ofChild, hcount, List.map_map]
  exact List.map_congr_left fun number _ => nth_pruned options parent child number

/-- What a walk passes over is what is pruned. -/
theorem children_pruned (hskips : options.skipAbsent = true) (e : Element) :
    e.pruned.children options.complete = (e.children options).map pruned := by
  have hall (nodes : List Node) :
      ((nodes.filter Node.isPresent).map Node.pruned).flatMap
          (e.pruned.ofChild options.complete) =
        (nodes.flatMap (e.ofChild options)).map pruned := by
    induction nodes with
    | nil => rfl
    | cons child rest ih =>
      rw [List.flatMap_cons, List.map_append, ← ih, List.filter_cons]
      cases hpresent : child.isPresent with
      | true => simp [ofChild_pruned hpresent]
      | false =>
        rw [ofChild_of_skipped (by simp [Node.isSkipped, hskips, hpresent])]
        rfl
  have hnode : e.pruned.node.children = (e.node.children.filter Node.isPresent).map Node.pruned :=
    e.node.children_pruned
  rw [children, hnode, hall]
  rfl

end Element

namespace Emitter

variable {σ : Type}

/-- An emitter that does as another one, but passes over what is absent. Neither looks at the
contents of the nodes of some sort, except through the walk. -/
structure Skips (em full : Emitter σ) (sort : Node → Prop) : Prop where
  skips : em.options.skipAbsent = true
  options_eq : full.options = em.options.complete
  initial_eq : full.initial = em.initial
  start_eq : ∀ context : Context,
    full.start { context with top := context.top.pruned } = em.start context
  block_eq : ∀ e inside, sort e.node → full.block e.pruned inside = em.block e inside
  registerFile_eq : ∀ e parent inside, sort e.node →
    full.registerFile e.pruned parent.pruned inside = em.registerFile e parent inside
  register_eq : ∀ e parent inside, sort e.node →
    full.register e.pruned parent.pruned inside = em.register e parent inside
  memory_eq : ∀ e parent, e.node.kind = .mem → sort e.node →
    full.memory e.pruned parent.pruned = em.memory e parent
  field_eq : ∀ f access e, full.field f access e.pruned = em.field f access e
  finish_eq : ∀ context : Context,
    full.finish { context with top := context.top.pruned } = em.finish context

namespace Skips

variable {em full : Emitter σ} {sort : Node → Prop}

theorem fields_eq (h : em.Skips full sort) (e : Element) : full.fields e.pruned = em.fields e := by
  have hfields : e.pruned.node.metFields full.options = e.node.metFields em.options := by
    simp [Element.pruned, Node.metFields, h.options_eq, WalkOptions.complete, h.skips]
  unfold fields
  rw [hfields]
  exact forM_congr fun f _ => h.field_eq f f.accessCode e

/-- The children of an element have addresses in both walks, or in none. -/
theorem needing_eq (h : em.Skips full sort) (e : Element) (step : ExportM σ Unit) :
    full.needing e.pruned e.pruned.node.children step = em.needing e e.node.children step := by
  have hreach : e.pruned.node.children.all (e.pruned.reaches full.options) =
      e.node.children.all (e.reaches em.options) := by
    rw [Bool.eq_iff_iff, all_reach_iff, all_reach_iff, h.options_eq,
      Element.children_pruned h.skips, List.forall_mem_map]
    rfl
  unfold needing
  rw [hreach]

theorem below_eq (h : em.Skips full sort) {e : Element}
    (hmeet : ∀ c ∈ e.children em.options, full.meet e.pruned c.pruned = em.meet e c) :
    full.below e.pruned = em.below e := by
  rw [Emitter.below_eq, Emitter.below_eq, h.needing_eq, h.options_eq,
    Element.children_pruned h.skips, List.forM_map]
  congr 1
  exact forM_congr hmeet

theorem meet_eq (h : em.Skips full sort) (e : Element) :
    (∀ m ∈ e.node.subtree, sort m) → ∀ parent,
      full.meet parent.pruned e.pruned = em.meet parent e := by
  induction e using Element.induction em.options with
  | step e ih =>
    intro hsort parent
    have hself := hsort e.node e.node.mem_subtree_self
    have hbelow : full.below e.pruned = em.below e := h.below_eq fun c hc =>
      ih c hc (fun m hm => hsort m
        (Node.mem_subtree_of_child (Element.node_mem_of_mem_children hc) hm)) e
    have hkind : e.pruned.node.kind = e.node.kind := e.node.kind_pruned
    cases hn : e.node.kind with
    | addrmap =>
      rw [meet_of_container _ (Or.inl (hkind.trans hn)), meet_of_container _ (Or.inl hn), hbelow,
        h.registerFile_eq _ _ _ hself]
    | regfile =>
      rw [meet_of_container _ (Or.inr (hkind.trans hn)), meet_of_container _ (Or.inr hn), hbelow,
        h.registerFile_eq _ _ _ hself]
    | reg =>
      rw [meet_of_register _ (hkind.trans hn), meet_of_register _ hn, h.fields_eq,
        h.register_eq _ _ _ hself]
    | mem =>
      rw [meet_of_memory _ (hkind.trans hn), meet_of_memory _ hn, h.memory_eq _ _ hn hself]

theorem visitBlock_eq (h : em.Skips full sort) {e : Element}
    (hsort : ∀ m ∈ e.node.subtree, sort m) : full.visitBlock e.pruned = em.visitBlock e := by
  have hbelow : full.below e.pruned = em.below e := h.below_eq fun c hc =>
    h.meet_eq c (fun m hm => hsort m
      (Node.mem_subtree_of_child (Element.node_mem_of_mem_children hc) hm)) e
  rw [Emitter.visitBlock_eq, Emitter.visitBlock_eq, hbelow,
    h.block_eq e _ (hsort e.node e.node.mem_subtree_self)]

theorem visitTop_eq (h : em.Skips full sort) {top : Node}
    (hsort : ∀ m ∈ top.subtree, sort m) (explosion : Explosion) :
    full.visitTop (.top top.pruned) explosion = em.visitTop (.top top) explosion := by
  rw [Element.top_pruned]
  cases explosion with
  | wrap => exact h.visitBlock_eq hsort
  | explode =>
    refine (h.needing_eq (.top top) _).trans ?_
    rw [h.options_eq, Element.children_pruned h.skips]
    refine congrArg _ (List.forM_map.trans (forM_congr fun c hc => ?_))
    refine h.visitBlock_eq fun m hm => ?_
    exact hsort m (Node.mem_subtree_of_child (Element.node_mem_of_mem_children hc) hm)

/-- The pruned map passes the check of a top if the map does, and fails it for the same kind. -/
theorem checkTop_pruned {top : Node} (hvalid : top.validate = .ok ()) :
    (checkTop top.pruned : ExportM σ Unit) = checkTop top := by
  unfold checkTop
  rw [Node.kind_pruned, Node.name_pruned, hvalid, Node.validate_pruned hvalid]

/-- An emitter that passes over what is absent makes of a map what the other makes of the
pruned map. -/
theorem produce_eq (h : em.Skips full sort) {top : Node} (hvalid : top.validate = .ok ())
    (hsort : ∀ m ∈ top.subtree, sort m) (hexplosion : full.explosion top.pruned = em.explosion top)
    (destination : Path) : em.produce top destination = full.produce top.pruned destination := by
  have hartifact : full.artifact top.pruned destination = em.artifact top destination := by
    unfold artifact
    simp only [checkTop_pruned hvalid, hexplosion, Node.name_pruned, h.visitTop_eq hsort,
      ← h.start_eq, ← h.finish_eq]
  unfold produce
  rw [hartifact, h.initial_eq]

theorem run_eq (h : em.Skips full sort) {m : Type → Type} [Monad m] (fs : FileSystem m)
    {top : Node} (hvalid : top.validate = .ok ()) (hsort : ∀ n ∈ top.subtree, sort n)
    (hexplosion : full.explosion top.pruned = em.explosion top) (destination : Path) :
    em.run fs top destination = full.run fs top.pruned destination := by
  unfold run
  rw [h.produce_eq hvalid hsort hexplosion, hexplosion]

end Skips

end Emitter

end RegisterMap
