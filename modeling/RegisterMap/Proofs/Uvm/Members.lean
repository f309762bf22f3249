import Mathlib.Data.Set.Insert
import RegisterMap.Proofs.Text.Keyword
import RegisterMap.Proofs.Uvm.Closed
import RegisterMap.Proofs.Uvm.Placement

/-!
The handles that the classes of a package declare. Every node that is visited has one
class, whose handles are named after what is met right below it: the children of a
container, the fields of a register. A step of the emitter declares classes and lets
the innermost block grow by some handles, and steps in a row do both one after the
other.
-/

namespace RegisterMap

/-- The names of what a walk meets right below a node. -/
def Node.memberNames (options : WalkOptions) (n : Node) : List String :=
  match n.kind with
  | .reg => (n.metFields options).map (·.name)
  | .addrmap | .regfile | .mem =>
    (n.children.filter fun child => !child.isSkipped options).map (·.name)

/-- The names that are declared together: the top by itself where it is a block of its
model, and what is met right below each node that is visited. -/
def Node.memberGroups (options : WalkOptions) (top : Node) : List (List String) :=
  (match Explosion.decide top with
    | .wrap => [[top.name]]
    | .explode => []) ++
  (top.visited options.skipAbsent).map (Node.memberNames options)

namespace Uvm

open ExportM

/-! The handles of classes. -/

def RegisterClass.handles (c : RegisterClass) : List String := c.fields.toList.map (·.name)

def BlockClass.handles (c : BlockClass) : List String := c.members.toList.map (·.name)

/-- The handles of each class; the class of a memory has none. -/
def Package.handles (p : Package) : List (List String) :=
  p.registers.map RegisterClass.handles ++ p.memories.map (fun _ => []) ++
    p.blocks.map BlockClass.handles ++ [p.model.handles]

/-- The handles of the classes that are finished. -/
def State.handles (s : State) : List (List String) :=
  s.registers.toList.map RegisterClass.handles ++ s.memories.toList.map (fun _ => []) ++
    s.blocks.toList.map BlockClass.handles

/-- The handles of the classes for a node and for all that is visited below it. -/
def classesOf (options : WalkOptions) (n : Node) : Set (List String) :=
  {handles | ∃ m ∈ n.visited options.skipAbsent,
    handles = (m.memberNames options).map Identifier.systemVerilog}

/-- A state with some finished classes and some open blocks, known by their handles. -/
structure Has (finished : Set (List String)) (opened : List (List String)) (s : State) : Prop where
  mem_handles : ∀ handles, handles ∈ s.handles ↔ handles ∈ finished
  opened_eq : s.stack.map BlockClass.handles = opened

/-- The register whose fields are being met has some handles. -/
structure HasRegister (finished : Set (List String)) (opened : List (List String))
    (fields : List String) (s : State) : Prop extends Has finished opened s where
  register_eq : s.register.map RegisterClass.handles = some fields

/-! Steps that declare classes and let a block grow. -/

/-- A step that declares classes and lets the innermost block grow by some handles. -/
def Declares (step : UvmM Unit) (classes : Set (List String)) (handles : List String) : Prop :=
  ∀ finished opened, Ensures (Has finished opened) step
    (fun _ => Has (finished ∪ classes) (opened.modifyHead (· ++ handles))) anyReason

theorem declares_pure : Declares (pure ()) ∅ [] := by
  intro finished opened
  refine .pure fun s hs => ?_
  have hopened : opened.modifyHead (· ++ []) = opened := by cases opened <;> simp
  rwa [Set.union_empty, hopened]

theorem Declares.andThen {first second : UvmM Unit} {x y : Set (List String)} {a b : List String}
    (hfirst : Declares first x a) (hsecond : Declares second y b) :
    Declares (first >>= fun _ => second) (x ∪ y) (a ++ b) := by
  intro finished opened
  refine (hfirst finished opened).bind fun _ => ?_
  refine (hsecond _ _).weaken (fun _ hs => hs) fun _ s hs => ?_
  have hopened : (opened.modifyHead (· ++ a)).modifyHead (· ++ b) =
      opened.modifyHead (· ++ (a ++ b)) := by cases opened <;> simp
  rwa [Set.union_assoc, hopened] at hs

theorem declares_forM {items : List α} {step : α → UvmM Unit} {classes : α → Set (List String)}
    {handle : α → String} (h : ∀ a ∈ items, Declares (step a) (classes a) [handle a]) :
    Declares (forM items step) {handles | ∃ a ∈ items, handles ∈ classes a}
      (items.map handle) := by
  induction items with
  | nil => simpa using declares_pure
  | cons item rest ih =>
    have hrest := ih fun a ha => h a (List.mem_cons_of_mem item ha)
    have hboth := (h item List.mem_cons_self).andThen hrest
    have hclasses : {handles | ∃ a ∈ item :: rest, handles ∈ classes a} =
        classes item ∪ {handles | ∃ a ∈ rest, handles ∈ classes a} := by
      ext handles
      simp
    rw [List.forM_cons, hclasses]
    exact hboth

/-- A step before others that leaves the classes and the blocks as they are. -/
theorem Declares.after {step : UvmM α} {next : α → UvmM Unit} {classes : Set (List String)}
    {handles : List String}
    (hstep : ∀ finished opened,
      Ensures (Has finished opened) step (fun _ => Has finished opened) anyReason)
    (hnext : ∀ a, Declares (next a) classes handles) :
    Declares (step >>= next) classes handles :=
  fun finished opened => (hstep finished opened).bind fun a => hnext a finished opened

/-- A step behind another that declares its class. -/
theorem Declares.behind {step : UvmM α} {next : α → UvmM Unit} {classes : Set (List String)}
    {handles : List String}
    (hstep : ∀ finished opened,
      Ensures (Has finished opened) step (fun _ => Has (finished ∪ classes) opened) anyReason)
    (hnext : ∀ a, Declares (next a) ∅ handles) : Declares (step >>= next) classes handles :=
  fun finished opened => (hstep finished opened).bind fun a =>
    (hnext a (finished ∪ classes) opened).weaken (fun _ hs => hs) fun _ _ hs => by
      rwa [Set.union_empty] at hs

/-! The steps of the emitter. -/

variable {finished : Set (List String)} {opened : List (List String)}

theorem ensures_takeName_has (base suffix : String) :
    Ensures (Has finished opened) (takeName base suffix) (fun _ => Has finished opened)
      anyReason :=
  .built_bind fun s hs => Ensures.bind (m := fun _ => Has finished opened)
    (.build fun t ht => by subst ht; exact ⟨hs.mem_handles, hs.opened_eq⟩)
    fun _ => .pure fun _ ht => ht

theorem handles_observing (width : Option Nat) (c : BlockClass) :
    (observing width c).handles = c.handles := by
  cases width <;> rfl

theorem declares_inParent (m : Member) (width : Option Nat) :
    Declares (inParent fun parent => observing width (parent.addMember m)) ∅ [m.name] := by
  intro finished opened
  refine .built_bind fun s hs => ?_
  have hbuild : Ensures (· = s) (.build fun s => { s with
      stack := s.stack.modifyHead fun parent => observing width (parent.addMember m) })
      (fun _ => Has (finished ∪ ∅) (opened.modifyHead (· ++ [m.name]))) anyReason := by
    refine .build fun t ht => ?_
    subst ht
    rw [Set.union_empty]
    refine ⟨hs.mem_handles, ?_⟩
    rw [← hs.opened_eq]
    cases t.stack with
    | nil => rfl
    | cons c above =>
      rw [List.modifyHead_cons, List.map_cons, List.map_cons, List.modifyHead_cons,
        handles_observing]
      simp [BlockClass.handles, BlockClass.addMember]
  split
  · exact Ensures.bind (m := fun _ _ => False) (.fail trivial) fun _ => .of_not fun _ => id
  · exact hbuild

theorem declares_addMember (e : Element) (kind : MemberKind) (className : String)
    (rights : Rights) (width : Option Nat) :
    Declares (addMember e kind className rights width) ∅
      [Identifier.systemVerilog e.node.name] := by
  unfold addMember
  split
  · exact declares_inParent _ _
  · exact fun _ _ => Ensures.bind (m := fun _ _ => False) (.stop trivial) fun _ =>
      .of_not fun _ => id

theorem ensures_takeMemoryClass_has (e : Element) :
    Ensures (Has finished opened) (takeMemoryClass e) (fun _ => Has (finished ∪ {[]}) opened)
      anyReason := by
  refine (ensures_takeName_has _ _).bind fun name => Ensures.bind
    (m := fun _ => Has (finished ∪ {[]}) opened) (.build fun s hs => ?_) fun _ => .pure fun _ h => h
  refine ⟨fun handles => ?_, hs.opened_eq⟩
  rw [Set.mem_union, ← hs.mem_handles]
  simp only [State.handles, Array.toList_push, List.map_append, List.mem_append, List.map_cons,
    List.map_nil, List.mem_singleton, Set.mem_singleton_iff]
  tauto

/-- A block that is finished joins the classes with the handles that it has come to have. -/
theorem ensures_takeBlockClass_has (e : Element) {inside : UvmM Unit}
    {classes : Set (List String)} {handles : List String} (h : Declares inside classes handles) :
    Ensures (Has finished opened) (takeBlockClass e inside)
      (fun _ => Has (finished ∪ (classes ∪ {handles})) opened) anyReason := by
  refine (ensures_takeName_has _ _).bind fun name => Ensures.bind
    (m := fun _ => Has finished ([] :: opened)) (.build fun s hs => ?_) fun _ =>
      (h finished ([] :: opened)).bind fun _ => .built_bind fun s hs => ?_
  · refine ⟨hs.mem_handles, ?_⟩
    rw [← hs.opened_eq]
    rfl
  · have hopened := hs.opened_eq
    cases hstack : s.stack with
    | nil => simp [hstack] at hopened
    | cons c above =>
      rw [hstack, List.modifyHead_cons, List.nil_append, List.map_cons, List.cons.injEq] at hopened
      refine Ensures.bind (m := fun _ => Has (finished ∪ (classes ∪ {handles})) opened)
        (.build fun t ht => ?_) fun _ => .pure fun _ ht => ht
      subst ht
      refine ⟨fun other => ?_, hopened.2⟩
      rw [← Set.union_assoc, Set.mem_union, ← hs.mem_handles, ← hopened.1]
      simp only [State.handles, Array.toList_push, List.map_append, List.mem_append, List.map_cons,
        List.map_nil, List.mem_singleton, Set.mem_singleton_iff]
      tauto

theorem ensures_checkRegisterArray_has (e : Element) :
    Ensures (Has finished opened) (checkRegisterArray e) (fun _ => Has finished opened)
      anyReason := by
  have hsettles : Settles (fun _ : Unit => Has finished opened) (checkRegisterArray e)
      e.node.IsSpaced anyReason := settles_checkRegisterArray fun _ _ _ => trivial
  exact (hsettles ()).weaken (fun _ hs => hs) fun _ _ hs => hs.1

/-- A register whose fields have been met joins the classes. -/
theorem HasRegister.close {fields : List String} {s : State}
    (h : HasRegister finished opened fields s) {current : RegisterClass}
    (hcurrent : s.register = some current) :
    Has (finished ∪ {fields}) opened
      { s with register := none, registers := s.registers.push current } := by
  have hfields : current.handles = fields := by simpa [hcurrent] using h.register_eq
  refine ⟨fun handles => ?_, h.opened_eq⟩
  rw [Set.mem_union, ← h.mem_handles, Set.mem_singleton_iff, ← hfields]
  simp only [State.handles, Array.toList_push, List.map_append, List.mem_append, List.map_cons,
    List.map_nil, List.mem_singleton]
  tauto

theorem ensures_fieldMember_has (f : Field) (access : AccessCode) (e : Element)
    (fields : List String) :
    Ensures (HasRegister finished opened fields) (fieldMember f access e)
      (fun _ => HasRegister finished opened (fields ++ [Identifier.systemVerilog f.name]))
      anyReason := by
  refine .built_bind fun s hs => ?_
  cases hcurrent : s.register with
  | none => exact .fail trivial
  | some current =>
    refine (Ensures.checked trivial).bind fun width => .build fun t ht => ?_
    obtain ⟨_, rfl⟩ := ht
    have hfields : current.handles = fields := by simpa [hcurrent] using hs.register_eq
    refine ⟨⟨hs.mem_handles, hs.opened_eq⟩, ?_⟩
    simp [RegisterClass.handles, ← hfields]

theorem ensures_fields_has (e : Element) (items : List Field)
    {step : Field → UvmM Unit} (hstep : ∀ f, ∃ access, step f = fieldMember f access e) :
    ∀ fields, Ensures (HasRegister finished opened fields) (forM items step)
      (fun _ => HasRegister finished opened
        (fields ++ items.map fun f => Identifier.systemVerilog f.name)) anyReason := by
  induction items with
  | nil => exact fun fields => .pure fun s hs => by simpa using hs
  | cons f rest ih =>
    intro fields
    obtain ⟨access, haccess⟩ := hstep f
    rw [List.forM_cons, haccess]
    refine (ensures_fieldMember_has f access e fields).bind fun _ => ?_
    simpa using ih (fields ++ [Identifier.systemVerilog f.name])

variable (options : UvmOptions)

/-- The class of a register has its fields. -/
theorem declares_register (e : Element) :
    Declares (registerMember e ((emitter options).fields e))
      {(e.node.metFields (walkOptions options)).map fun f => Identifier.systemVerilog f.name}
      [Identifier.systemVerilog e.node.name] := by
  refine .after (fun _ _ => ensures_checkRegisterArray_has e) fun _ =>
    .after (fun _ _ => ensures_takeName_has _ _) fun name => fun finished opened => ?_
  refine Ensures.bind (m := fun _ => HasRegister finished opened []) (.build fun s hs => ?_)
    fun _ => (ensures_fields_has e _ (fun f => ⟨_, rfl⟩) []).bind fun _ =>
      .built_bind fun s hs => ?_
  · exact ⟨⟨hs.mem_handles, hs.opened_eq⟩, rfl⟩
  · cases hcurrent : s.register with
    | none => exact .fail trivial
    | some current =>
      refine Ensures.bind (m := fun _ => Has (finished ∪ {(e.node.metFields
        (walkOptions options)).map fun f => Identifier.systemVerilog f.name}) opened)
        (.build fun t ht => ?_) fun _ => (Ensures.observeBusWidth _).bind fun _ => ?_
      · subst ht
        rw [List.nil_append] at hs
        exact hs.close hcurrent
      · simpa using declares_addMember e .register name current.rights (some e.node.busWidth) _ _

theorem declares_memory (e parent : Element) :
    Declares ((emitter options).memory e parent) {[]} [Identifier.systemVerilog e.node.name] :=
  .behind (fun _ _ => ensures_takeMemoryClass_has e) fun _ => declares_addMember e _ _ _ _

theorem declares_container (e parent : Element) {inside : UvmM Unit} {classes : Set (List String)}
    {handles : List String} (h : Declares inside classes handles) :
    Declares ((emitter options).registerFile e parent inside) (classes ∪ {handles})
      [Identifier.systemVerilog e.node.name] :=
  .behind (fun _ _ => ensures_takeBlockClass_has e h) fun _ => declares_addMember e _ _ _ _

/-! The classes of a map. -/

theorem classesOf_of_childless {options : WalkOptions} {n : Node} (h : n.children = []) :
    classesOf options n = {(n.memberNames options).map Identifier.systemVerilog} := by
  have hvisited : n.visited options.skipAbsent = [n] := by
    rw [Node.visited_eq, Node.visitedBelow_of_childless _ h]
  ext handles
  simp [classesOf, hvisited]

/-- The classes for a node are those for what is met right below it, and its own. -/
theorem classesOf_eq {options : WalkOptions} {e : Element} (h : e.node.IsValid) :
    classesOf options e.node =
      {handles | ∃ c ∈ e.children options, handles ∈ classesOf options c.node} ∪
        {(e.node.memberNames options).map Identifier.systemVerilog} := by
  ext handles
  simp only [classesOf, Set.mem_union, Set.mem_ofPred_eq, Set.mem_singleton_iff]
  rw [Node.visited_eq, List.exists_mem_cons_iff, or_comm]
  simp only [Element.mem_visitedBelow_iff h]
  constructor
  · rintro (⟨m, ⟨c, hc, hm⟩, rfl⟩ | rfl)
    · exact Or.inl ⟨c, hc, m, hm, rfl⟩
    · exact Or.inr rfl
  · rintro (⟨c, hc, m, hm, rfl⟩ | rfl)
    · exact Or.inl ⟨m, ⟨c, hc, hm⟩, rfl⟩
    · exact Or.inr rfl

/-- The names of the elements right below a container. -/
theorem map_name_children {options : WalkOptions} (hroll : options.unroll = false) {e : Element}
    (h : e.node.kind ≠ .reg) :
    (e.children options).map (fun c => Identifier.systemVerilog c.node.name) =
      (e.node.memberNames options).map Identifier.systemVerilog := by
  have hnames : e.node.memberNames options = ((e.children options).map (·.node)).map (·.name) := by
    rw [Element.map_node_children hroll, Node.memberNames]
    cases hkind : e.node.kind with
    | reg => exact absurd hkind h
    | addrmap | regfile | mem => rfl
  rw [hnames, List.map_map, List.map_map]
  rfl

theorem declares_below {e : Element} (hkind : e.node.kind ≠ .reg)
    (hmeet : ∀ c ∈ e.children (walkOptions options),
      Declares ((emitter options).meet e c) (classesOf (walkOptions options) c.node)
        [Identifier.systemVerilog c.node.name]) :
    Declares ((emitter options).below e)
      {handles | ∃ c ∈ e.children (walkOptions options),
        handles ∈ classesOf (walkOptions options) c.node}
      ((e.node.memberNames (walkOptions options)).map Identifier.systemVerilog) := by
  rw [Emitter.below_eq, ← map_name_children rfl hkind]
  have hall := declares_forM hmeet
  exact fun finished opened => (emitter options).ensures_needing trivial (hall finished opened)

/-- An element has one class for each node that is visited from it on, and one handle in
the block around it. -/
theorem declares_meet (e : Element) : e.node.IsValid → ∀ parent,
    Declares ((emitter options).meet parent e) (classesOf (walkOptions options) e.node)
      [Identifier.systemVerilog e.node.name] := by
  induction e using Element.induction (walkOptions options) with
  | step e ih =>
    intro hvalid parent
    have hcontainer (hkind : e.node.kind = .addrmap ∨ e.node.kind = .regfile) :
        Declares ((emitter options).meet parent e) (classesOf (walkOptions options) e.node)
          [Identifier.systemVerilog e.node.name] := by
      have hbelow := declares_below options (e := e) (by rcases hkind with h | h <;> simp [h])
        fun c hc => ih c hc (Element.isValid_of_mem_children hvalid hc) e
      rw [Emitter.meet_of_container _ hkind, classesOf_eq hvalid]
      exact declares_container options e parent hbelow
    cases hkind : e.node.kind with
    | addrmap => exact hcontainer (Or.inl hkind)
    | regfile => exact hcontainer (Or.inr hkind)
    | reg =>
      have hnames : (e.node.memberNames (walkOptions options)).map Identifier.systemVerilog =
          (e.node.metFields (walkOptions options)).map fun f =>
            Identifier.systemVerilog f.name := by
        rw [Node.memberNames, hkind, List.map_map]
        rfl
      rw [Emitter.meet_of_register _ hkind,
        classesOf_of_childless (hvalid.children_of_register hkind), hnames]
      exact declares_register options e
    | mem =>
      have hnames : e.node.memberNames (walkOptions options) = [] := by
        simp [Node.memberNames, hkind, hvalid.children_of_memory hkind]
      rw [Emitter.meet_of_memory _ hkind,
        classesOf_of_childless (hvalid.children_of_memory hkind), hnames]
      exact declares_memory options e parent

theorem declares_visitBlock {e : Element} (hvalid : e.node.IsValid)
    (hkind : e.node.kind.canBeTop = true) :
    Declares ((emitter options).visitBlock e) (classesOf (walkOptions options) e.node)
      [Identifier.systemVerilog e.node.name] := by
  have hreset (finished : Set (List String)) (opened : List (List String)) :
      Ensures (Has finished opened) resetBusWidth (fun _ => Has finished opened) anyReason :=
    .resetBusWidth
  rw [Emitter.visitBlock_eq]
  refine .after hreset fun _ => .after (fun _ _ => .info _) fun _ => ?_
  cases hn : e.node.kind with
  | addrmap =>
    have hbelow := declares_below options (e := e) (by simp [hn]) fun c hc =>
      declares_meet options c (Element.isValid_of_mem_children hvalid hc) e
    rw [classesOf_eq hvalid]
    simp only [reduceCtorEq, if_false]
    exact .behind (fun _ _ => ensures_takeBlockClass_has e hbelow) fun _ =>
      .after (fun _ _ => .busWidth) fun _ => declares_inParent _ _
  | mem =>
    have hnames : e.node.memberNames (walkOptions options) = [] := by
      simp [Node.memberNames, hn, hvalid.children_of_memory hn]
    rw [classesOf_of_childless (hvalid.children_of_memory hn), hnames]
    simp only [if_true]
    exact .behind (fun _ _ => ensures_takeMemoryClass_has e) fun _ => declares_inParent _ _
  | regfile => simp [hn, Kind.canBeTop] at hkind
  | reg => simp [hn, Kind.canBeTop] at hkind

/-- The model of a map has one handle where the top is its only block, and else the handles
of the class of the top. -/
theorem exists_declares_visitTop {top : Node} (hvalid : top.IsValid)
    (hkind : top.kind.canBeTop = true) :
    ∃ classes handles,
      Declares ((emitter options).visitTop (.top top) (.decide top)) classes handles ∧
        ∀ others, others ∈ classes ∪ {handles} ↔
          ∃ group ∈ top.memberGroups (walkOptions options),
            others = group.map Identifier.systemVerilog := by
  unfold Node.memberGroups
  cases hexplosion : Explosion.decide top with
  | wrap =>
    refine ⟨_, _, declares_visitBlock options (e := .top top) hvalid hkind, fun others => ?_⟩
    simp [classesOf, Element.top]
  | explode =>
    obtain ⟨htop, hblockable⟩ := Explosion.decide_eq_explode hexplosion
    have hblocks : ∀ c ∈ (Element.top top).children (walkOptions options),
        Declares ((emitter options).visitBlock c) (classesOf (walkOptions options) c.node)
          [Identifier.systemVerilog c.node.name] := by
      intro c hc
      have hchild := hblockable _ (Element.node_mem_of_mem_children hc)
      exact declares_visitBlock options (Element.isValid_of_mem_children hvalid hc)
        ((Explosion.isBlockable_iff _).1 hchild).1
    have hall := declares_forM hblocks
    refine ⟨_, _, fun finished opened => (emitter options).ensures_needing trivial
      (hall finished opened), fun others => ?_⟩
    rw [map_name_children rfl (by simp [Element.top, htop]), ← classesOf_eq hvalid]
    simp [classesOf, Element.top]

theorem ensures_start_has (context : Context) :
    Ensures (· = (emitter options).initial) ((emitter options).start context)
      (fun _ => Has ∅ [[]]) anyReason := by
  have hinitial : Has ∅ [] (emitter options).initial := ⟨by simp [State.handles, emitter], rfl⟩
  have hname : Ensures (· = (emitter options).initial)
      (takeName (Identifier.systemVerilog context.top.name) "reg_model") (fun _ => Has ∅ [])
      anyReason :=
    (ensures_takeName_has _ _).weaken (fun s hs => hs ▸ hinitial) fun _ _ hs => hs
  refine hname.bind fun name => .build fun s hs => ⟨hs.mem_handles, ?_⟩
  rw [List.map_cons, hs.opened_eq]
  rfl

theorem State.handles_package (s : State) (name top : String) (model : BlockClass) :
    (s.package name top model).handles = s.handles ++ [model.handles] := rfl

/-- The classes of a package have the members that the walk meets together, under names
that SystemVerilog takes. -/
theorem mem_handles_of_produce {top : Node} {destination : Path} {a : Artifact}
    {s : Session State} (h : (emitter options).produce top destination = (.ok a, s)) :
    ∃ package, s.state.written? options top = some package ∧ a = .text package.render ∧
      ∀ handles, handles ∈ package.handles ↔
        ∃ group ∈ top.memberGroups (walkOptions options),
          handles = group.map Identifier.systemVerilog := by
  obtain ⟨⟨hkind, hvalid⟩, hsteps⟩ := (emitter options).produce_eq_ok_iff.1 h
  obtain ⟨classes, model, hwalk, hgroups⟩ :=
    exists_declares_visitTop options (Node.isValid_of_validate hvalid) hkind
  have hall : Ensures (· = (emitter options).initial) ((emitter options).steps top destination)
      (fun b t => ∃ package, t.written? options top = some package ∧ b = .text package.render ∧
        ∀ handles, handles ∈ package.handles ↔ handles ∈ classes ∪ {model}) anyReason := by
    refine (ensures_start_has options _).bind fun _ => (hwalk ∅ [[]]).bind fun _ =>
      .built_bind fun t ht => ?_
    have hopened := ht.opened_eq
    cases hstack : t.stack with
    | nil => exact .fail trivial
    | cons c above =>
      rw [hstack, List.map_cons, List.modifyHead_cons, List.nil_append, List.cons.injEq] at hopened
      refine .pure fun u hu => ?_
      subst hu
      refine ⟨_, State.written?_of_stack hstack options top, rfl, fun handles => ?_⟩
      rw [State.handles_package, List.mem_append, List.mem_singleton, ht.mem_handles,
        Set.empty_union, hopened.1, Set.mem_union, Set.mem_singleton_iff]
  obtain ⟨package, hwritten, htext, hhandles⟩ := hall.yields _ a s rfl hsteps
  exact ⟨package, hwritten, htext, fun handles => (hhandles handles).trans (hgroups handles)⟩

end Uvm

end RegisterMap
