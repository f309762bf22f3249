import RegisterMap.Proofs.Produce
import RegisterMap.Proofs.RowMajor
import RegisterMap.Proofs.Uvm.Build

/-!
The model of a package maps every register and memory where the walk of the map
meets it. A class is built once for a node, and stands for it in every element of
the walk that the node lies in. So the members of a block are compared with the
walk below each occurrence of its node, and only there are elements counted.
-/

namespace RegisterMap.Uvm

open ExportM

/-- The walk that a package is built in meets arrays as a whole. -/
def walkOptions (options : UvmOptions) : WalkOptions := { skipAbsent := options.skipAbsent }

/-- The registers and memories that are met from a child of an occurrence downwards. -/
abbrev placements (options : WalkOptions) (explosion : Explosion) (child : Node)
    (o : Occurrence) : List Mapping :=
  o.placements Identifier.systemVerilog explosion Occurrence.isLeaf options child

/-- A member for a register or a memory. -/
theorem mappings_of_leaf {options : WalkOptions} {e : Element} {kind : MemberKind}
    (hmet : e.node.isSkipped options = false) (hkind : kind ≠ .block)
    (hleaf : e.node.kind = .reg ∨ e.node.kind = .mem) (hvalid : e.node.IsValid)
    (className : String) (rights : Rights) (s : State) (explosion : Explosion) (o : Occurrence) :
    s.mappings [memberOf e kind className rights] (pathOf explosion o) o.element.address =
      placements options explosion e.node o := by
  have hchildren : e.node.children = [] := by
    rcases hleaf with h | h
    · exact hvalid.children_of_register h
    · exact hvalid.children_of_memory h
  rw [State.mappings, List.flatMap_singleton,
    mappings_eq_ofChild (n := e.node) hmet rfl rfl rfl, placements, Occurrence.placements]
  apply List.flatMap_congr
  intro c hc
  have hnode : (o.inside c).element.node = e.node := Element.node_of_mem_ofChild hc
  have hself : (o.inside c).isLeaf = true := by
    rw [Occurrence.isLeaf, hnode]
    rcases hleaf with h | h <;> rw [h]
  rw [Occurrence.select_of_childless _ (hnode ▸ hchildren), if_pos hself]
  cases kind with
  | block => exact absurd rfl hkind
  | register => rfl
  | memory => rfl

/-- A member for a container, whose class maps what is placed in it. -/
theorem mappings_of_container {options : WalkOptions} {explosion : Explosion} {e : Element}
    (hmet : e.node.isSkipped options = false)
    (hkind : e.node.kind = .addrmap ∨ e.node.kind = .regfile) {className : String} {s : State}
    (hclass : ∀ o : Occurrence,
      mapped s.blocks.toList.reverse className (pathOf explosion o) o.element.address =
        e.node.children.flatMap fun child => placements options explosion child o)
    (rights : Rights) (o : Occurrence) :
    s.mappings [memberOf e .block className rights] (pathOf explosion o) o.element.address =
      placements options explosion e.node o := by
  rw [State.mappings, List.flatMap_singleton,
    mappings_eq_ofChild (n := e.node) hmet rfl rfl rfl, placements, Occurrence.placements]
  apply List.flatMap_congr
  intro c hc
  have hnode : (o.inside c).element.node = e.node := Element.node_of_mem_ofChild hc
  have hinner : (o.inside c).isLeaf = false := by
    rw [Occurrence.isLeaf_eq_false_iff, hnode]
    exact hkind
  rw [Occurrence.placements_select _ _ _ hinner, hnode]
  exact hclass (o.inside c)

/-! The steps of the walk. -/

variable {options : UvmOptions} {explosion : Explosion}

/-- The member of an element that is no container joins the block around it. -/
theorem fills_addMember {e : Element} {kind : MemberKind}
    (hmet : e.node.isSkipped (walkOptions options) = false) (hkind : kind ≠ .block)
    (hleaf : e.node.kind = .reg ∨ e.node.kind = .mem) (hvalid : e.node.IsValid)
    (className : String) (rights : Rights) (width : Option Nat) :
    Fills (addMember e kind className rights width) (mappingOf explosion)
      (placements (walkOptions options) explosion e.node) := by
  intro s t _ h
  have hgrows := grows_addMember h (fun hblock => absurd hblock hkind) hvalid
  exact ⟨_, hgrows, mappings_of_leaf hmet hkind hleaf hvalid className rights t.state explosion⟩

theorem fills_register {e : Element} (hvalid : e.node.IsValid) (hkind : e.node.kind = .reg)
    (hmet : e.node.isSkipped (walkOptions options) = false) :
    Fills (registerMember e ((emitter options).fields e)) (mappingOf explosion)
      (placements (walkOptions options) explosion e.node) := by
  have hfields : Keeping ((emitter options).fields e) :=
    keeping_forM fun f _ => keeping_fieldMember f f.accessCode e
  have hopen (name : String) : Keeping (build fun s =>
      { s with register := some { name, width := e.node.regWidth } }) :=
    keeping_build (fun _ => rfl) (fun _ => rfl) fun _ _ h => h
  have hclose (finished : RegisterClass) : Keeping (build fun s =>
      { s with register := none, registers := s.registers.push finished }) :=
    keeping_build (fun _ => rfl) (fun _ => rfl) fun _ _ h => h
  apply fills_of_keeping (keeping_checkRegisterArray e)
  intro _
  apply fills_of_keeping (keeping_takeName _ _)
  intro name
  apply fills_of_keeping (hopen name)
  intro _
  apply fills_of_keeping hfields
  intro _
  apply fills_of_keeping keeping_built
  intro s
  cases s.register with
  | none => exact fills_fail _ _
  | some finished =>
    apply fills_of_keeping (hclose finished)
    intro _
    apply fills_of_keeping (keeping_observeBusWidth _)
    intro _
    exact fills_addMember hmet (by simp) (Or.inl hkind) hvalid _ _ _

theorem fills_memory {e : Element} (hvalid : e.node.IsValid) (hkind : e.node.kind = .mem)
    (hmet : e.node.isSkipped (walkOptions options) = false) (parent : Element) :
    Fills ((emitter options).memory e parent) (mappingOf explosion)
      (placements (walkOptions options) explosion e.node) := by
  apply fills_of_keeping (keeping_takeMemoryClass e)
  intro className
  exact fills_addMember hmet (by simp) (Or.inr hkind) hvalid _ _ _

theorem fills_container {e : Element} (hvalid : e.node.IsValid)
    (hkind : e.node.kind = .addrmap ∨ e.node.kind = .regfile)
    (hmet : e.node.isSkipped (walkOptions options) = false) (parent : Element)
    {inside : UvmM Unit}
    (hinside : Fills inside (mappingOf explosion) fun o =>
      e.node.children.flatMap fun child => placements (walkOptions options) explosion child o) :
    Fills ((emitter options).registerFile e parent inside) (mappingOf explosion)
      (placements (walkOptions options) explosion e.node) := by
  intro s t _ h
  obtain ⟨finished, s', htake, hadd⟩ := yields_bind.1 h
  obtain ⟨hkeeps, hname, hclass⟩ := keeps_takeBlockClass hinside htake
  have hgrows := grows_addMember hadd (fun _ => hname) hvalid
  refine ⟨_, hkeeps.grows hgrows, ?_⟩
  intro o
  rw [hgrows.toExtends.mappings_eq fun m hm _ => List.mem_singleton.1 hm ▸ hname]
  exact mappings_of_container hmet hkind hclass .rw o

/-- What is met below an element fills a block with all that its children place. -/
theorem fills_below {e : Element}
    (hmeet : ∀ c ∈ e.children (walkOptions options), ∀ parent,
      Fills ((emitter options).meet parent c) (mappingOf explosion)
        (placements (walkOptions options) explosion c.node)) :
    Fills ((emitter options).below e) (mappingOf explosion) fun o =>
      e.node.children.flatMap fun child => placements (walkOptions options) explosion child o := by
  have hall := fills_forM fun c hc => hmeet c hc e
  have hexpected (o : Occurrence) :=
    Element.flatMap_children (rfl : (walkOptions options).unroll = false) e
      (f := fun child => placements (walkOptions options) explosion child o)
      fun _ hskipped => Occurrence.placements_of_skipped _ _ _ hskipped o
  intro s t hstack h
  rw [Emitter.below_eq, Emitter.yields_needing] at h
  obtain ⟨members, hgrows, hmapped⟩ := hall s t hstack h.2
  exact ⟨members, hgrows, fun o => (hmapped o).trans (hexpected o)⟩

/-- Wherever an element is met, the block around it comes to place all that a walk meets
as its node. -/
theorem fills_meet (options : UvmOptions) (explosion : Explosion) (e : Element) :
    e.node.IsValid → e.node.isSkipped (walkOptions options) = false → ∀ parent,
      Fills ((emitter options).meet parent e) (mappingOf explosion)
        (placements (walkOptions options) explosion e.node) := by
  induction e using Element.induction (walkOptions options) with
  | step e ih =>
    intro hvalid hmet parent
    have hbelow : Fills ((emitter options).below e) (mappingOf explosion) fun o =>
        e.node.children.flatMap fun child =>
          placements (walkOptions options) explosion child o :=
      fills_below fun c hc => ih c hc (Element.isValid_of_mem_children hvalid hc)
        (Element.isSkipped_of_mem_children hc)
    cases hkind : e.node.kind with
    | addrmap =>
      rw [Emitter.meet_of_container _ (Or.inl hkind)]
      exact fills_container hvalid (Or.inl hkind) hmet parent hbelow
    | regfile =>
      rw [Emitter.meet_of_container _ (Or.inr hkind)]
      exact fills_container hvalid (Or.inr hkind) hmet parent hbelow
    | reg =>
      rw [Emitter.meet_of_register _ hkind]
      exact fills_register hvalid hkind hmet
    | mem =>
      rw [Emitter.meet_of_memory _ hkind]
      exact fills_memory hvalid hkind hmet parent

/-! The blocks of the model. -/

/-- Where the model lies. -/
def root : Unit → List Instance × Nat := fun _ => ([], 0)

/-- The member that stands for an address block in the model. -/
def blockMemberOf (e : Element) (kind : MemberKind) (className : String) (rights : Rights) :
    Member where
  kind := kind
  name := Identifier.systemVerilog e.node.name
  className := className
  shape := none
  offset := e.address
  rights := rights

theorem mappings_blockMemberOf {o : Occurrence} (hindex : o.element.index = none)
    (hpath : pathOf explosion o = [instanceOf o.element]) (s : State) (kind : MemberKind)
    (className : String) (rights : Rights) :
    s.mappings [blockMemberOf o.element kind className rights] [] 0 =
      match kind with
      | .block =>
        mapped s.blocks.toList.reverse className (pathOf explosion o) o.element.address
      | .register | .memory => [mappingOf explosion o] := by
  have hinstances : pathOf explosion o = [(Identifier.systemVerilog o.element.node.name, [])] := by
    rw [hpath, instanceOf, Element.toInstance, hindex]
    rfl
  have hmapping : mappingOf explosion o =
      ([(Identifier.systemVerilog o.element.node.name, [])], o.element.address) :=
    congrArg (·, o.element.address) hinstances
  have hsingle : (blockMemberOf o.element kind className rights).shape = none := rfl
  rw [State.mappings, List.flatMap_singleton, Member.mappings, Member.places_of_single hsingle,
    List.flatMap_singleton, hmapping, hinstances]
  cases kind <;> simp only [blockMemberOf, List.nil_append, Nat.zero_add]

theorem grows_addBlock {e : Element} {kind : MemberKind} {className : String} {rights : Rights}
    {width : Option Nat} {s t : Session State} {u : Unit}
    (h : Yields (addBlock e kind className rights width) s u t)
    (hclass : kind = .block → className ∈ s.state.names) :
    Grows s.state t.state [blockMemberOf e kind className rights] :=
  grows_inParent h hclass (fun a ha => by cases ha)

/-- A block of the model places what is met from it downwards. -/
theorem fills_block {o : Occurrence} (hvalid : o.element.node.IsValid)
    (hkind : o.element.node.kind.canBeTop = true) (hindex : o.element.index = none)
    (hpath : pathOf explosion o = [instanceOf o.element]) :
    Fills ((emitter options).visitBlock o.element) root fun _ =>
      (o.select Occurrence.isLeaf (walkOptions options).unrolled).map (mappingOf explosion) := by
  have hbelow : Fills ((emitter options).below o.element) (mappingOf explosion)
      fun q => o.element.node.children.flatMap fun child =>
        placements (walkOptions options) explosion child q :=
    fills_below fun c hc => fills_meet options explosion c
      (Element.isValid_of_mem_children hvalid hc) (Element.isSkipped_of_mem_children hc)
  have hreset : Keeping resetBusWidth :=
    keeping_of_state_eq fun _ _ _ h => by rw [← yields_resetBusWidth.1 h]; rfl
  have hinfo (text : String) : Keeping (info text) :=
    keeping_of_state_eq fun _ _ _ h => by rw [← yields_info.1 h]; rfl
  rw [Emitter.visitBlock_eq]
  apply fills_of_keeping hreset
  intro _
  apply fills_of_keeping (hinfo _)
  intro _
  cases hn : o.element.node.kind with
  | addrmap =>
    simp only [reduceCtorEq, if_false]
    intro s t _ h
    obtain ⟨finished, s₁, htake, hrest⟩ := yields_bind.1 h
    obtain ⟨hkeeps, hname, hclass⟩ := keeps_takeBlockClass hbelow htake
    obtain ⟨width, s₂, hwidth, hadd⟩ := yields_bind.1 hrest
    obtain ⟨_, rfl⟩ := yields_busWidth.1 hwidth
    have hgrows := grows_addBlock hadd fun _ => hname
    refine ⟨_, hkeeps.grows hgrows, ?_⟩
    intro _
    rw [hgrows.toExtends.mappings_eq fun m hm _ => List.mem_singleton.1 hm ▸ hname]
    have hinner : o.isLeaf = false := (Occurrence.isLeaf_eq_false_iff o).2 (Or.inl hn)
    rw [Occurrence.placements_select _ _ _ hinner, ← hclass o]
    exact mappings_blockMemberOf hindex hpath s₁.state .block finished.name .rw
  | mem =>
    simp only [if_true]
    apply fills_of_keeping (keeping_takeMemoryClass o.element)
    intro className s t _ h
    have hself : o.isLeaf = true := by rw [Occurrence.isLeaf, hn]
    refine ⟨_, grows_addBlock h (by simp), ?_⟩
    intro _
    rw [Occurrence.select_of_childless _ (hvalid.children_of_memory hn), if_pos hself]
    exact mappings_blockMemberOf hindex hpath t.state .memory className _
  | regfile => simp [hn, Kind.canBeTop] at hkind
  | reg => simp [hn, Kind.canBeTop] at hkind

theorem fills_top (options : UvmOptions) {top : Node} (hvalid : top.IsValid)
    (hkind : top.kind.canBeTop = true) :
    Fills ((emitter options).visitTop (.top top) (.decide top)) root fun _ =>
      ((Occurrence.top top).select Occurrence.isLeaf (walkOptions options).unrolled).map
        (mappingOf (.decide top)) := by
  cases hexplosion : Explosion.decide top with
  | wrap =>
    have hpath : pathOf .wrap (.top top) = [instanceOf (.top top)] := rfl
    rw [Emitter.visitTop]
    exact fills_block (o := .top top) hvalid hkind rfl hpath
  | explode =>
    obtain ⟨htop, hblockable⟩ := Explosion.decide_eq_explode hexplosion
    have hblocks : ∀ c ∈ (Element.top top).children (walkOptions options),
        Fills ((emitter options).visitBlock c) root fun _ =>
          (((Occurrence.top top).inside c).select Occurrence.isLeaf
            (walkOptions options).unrolled).map (mappingOf .explode) := by
      intro c hc
      have hchild := (Explosion.isBlockable_iff _).1
        (hblockable _ (Element.node_mem_of_mem_children hc))
      have hpath : pathOf .explode ((Occurrence.top top).inside c) = [instanceOf c] := rfl
      exact fills_block (o := (Occurrence.top top).inside c)
        (Element.isValid_of_mem_children hvalid hc) hchild.1
        (Element.index_of_mem_children rfl hc) hpath
    have hself := (Occurrence.isLeaf_eq_false_iff (.top top)).2 (Or.inl htop)
    rw [Occurrence.select_of_explode hexplosion hself, List.map_flatMap]
    intro s t hstack h
    exact fills_forM hblocks s t hstack ((Emitter.yields_needing _).1 h).2

/-! The package as a whole. -/

/-- Each element of a sound array is found by an index of its own, and every index that
is in range finds one. -/
theorem Member.IsSound.indices_places {m : Member} (h : m.IsSound) {shape : ArrayShape}
    (hshape : m.shape = some shape) :
    (m.places.map Prod.fst).Nodup ∧
      ∀ index, index ∈ m.places.map Prod.fst ↔ List.Forall₂ (· < ·) index shape.dimensions := by
  have hcounted := (h shape hshape).isCounted
  have hindices : m.places.map Prod.fst = shape.indices := by
    unfold Member.places Member.count Member.indexOf ArrayShape.indices
    rw [hshape, List.map_map]
    rfl
  rw [hindices]
  exact ⟨hcounted.nodup_indices, fun index => hcounted.mem_indices_iff⟩

/-- What has grown from an empty block is a model with classes whose names differ. -/
theorem Grows.model {s t : State} {root : BlockClass} {members : List Member}
    (h : Grows s t members) (hstack : s.stack = [root]) (hblocks : s.blocks = #[])
    (hempty : root.members = #[]) (hused : root.name ∈ s.names) :
    ∃ model, t.stack = [model] ∧ model.name = root.name ∧ model.members.toList = members ∧
      ((model :: t.blocks.toList).map BlockClass.name).Nodup ∧
      ∀ c ∈ model :: t.blocks.toList, ∀ m ∈ c.members.toList, m.IsSound := by
  obtain ⟨c, model, above, hbefore, hafter, hname, hmembers⟩ := h.stack_eq
  rw [hstack] at hbefore
  obtain ⟨rfl, rfl⟩ := List.cons.inj hbefore
  rw [hempty, List.nil_append] at hmembers
  obtain ⟨new, hdeclared, hnodup, hnew⟩ := h.declares
  rw [hblocks, List.nil_append] at hdeclared
  rw [hdeclared]
  refine ⟨model, hafter, hname, hmembers, ?_, ?_⟩
  · rw [List.map_cons, List.nodup_cons]
    refine ⟨?_, hnodup⟩
    intro htaken
    obtain ⟨b, hb, hsame⟩ := List.mem_map.1 htaken
    have hfresh := (hnew b hb).1
    rw [hsame, hname] at hfresh
    exact hfresh hused
  · intro c hc
    rcases List.mem_cons.1 hc with rfl | hc
    · rw [hmembers]
      exact h.sound
    · exact (hnew c hc).2.2

/-- The package that an export has built maps every register and memory of the walk at its
address, in the order of the walk, and its arrays of members are sound. -/
theorem mappings_of_produce {options : UvmOptions} {top : Node} {destination : Path}
    {a : Artifact} {s : Session State}
    (h : (emitter options).produce top destination = (.ok a, s)) :
    ∃ package, s.state.written? options top = some package ∧
      ((package.model :: package.blocks).map BlockClass.name).Nodup ∧
      package.mappings =
        ((Occurrence.all { skipAbsent := options.skipAbsent, unroll := true } top).filter
          Occurrence.isLeaf).map (mappingOf (.decide top)) ∧
      ∀ c ∈ package.model :: package.blocks, ∀ m ∈ c.members.toList, m.IsSound := by
  obtain ⟨⟨hkind, hvalid⟩, hsteps⟩ := (emitter options).produce_eq_ok_iff.1 h
  obtain ⟨_, s₁, hstart, hrest⟩ := yields_bind.1 hsteps
  obtain ⟨_, s₂, hvisit, hfinish⟩ := yields_bind.1 hrest
  obtain ⟨name, s₃, htake, hopen⟩ := yields_bind.1 hstart
  obtain ⟨hname, rfl⟩ := yields_takeName.1 htake
  obtain rfl := yields_build.1 hopen
  obtain ⟨members, hgrows, hmapped⟩ :=
    fills_top options (Node.isValid_of_validate hvalid) hkind _ s₂ (by simp) hvisit
  obtain ⟨model, hstack, _, hmembers, hnames, hsound⟩ :=
    hgrows.model rfl rfl rfl (Std.TreeSet.mem_insert.2 (Or.inl Std.ReflCmp.compare_self))
  obtain ⟨built, s₄, hbuilt, hpure⟩ := yields_bind.1 hfinish
  obtain ⟨rfl, rfl⟩ := yields_built.1 hbuilt
  simp only [hstack, yields_pure] at hpure
  obtain ⟨rfl, rfl⟩ := hpure
  refine ⟨_, State.written?_of_stack hstack options top, hnames, ?_, hsound⟩
  have hplaced := hmapped ()
  rw [← hmembers] at hplaced
  exact hplaced

end RegisterMap.Uvm
