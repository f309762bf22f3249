import RegisterMap.Proofs.Guards
import RegisterMap.Proofs.Uvm.Build
import RegisterMap.Proofs.Uvm.ClassName
import RegisterMap.Proofs.Uvm.FileOrder

/-!
Which classes a package has while it is being built. A class is finished, open on the
stack, or the register whose fields are being met, and its name is in use from the
moment it is taken. Members are of classes that are finished already.
-/

namespace RegisterMap.Uvm

open ExportM

/-! The classes of a state. -/

namespace State

/-- The classes that have no members of other classes. -/
def leafNames (s : State) : List String :=
  s.registers.toList.map (·.name) ++ s.memories.toList.map (·.name)

def declaredNames (s : State) : List String := s.leafNames ++ s.blocks.toList.map (·.name)

def classNames (s : State) : List String :=
  s.declaredNames ++ s.stack.map (·.name) ++ (s.register.map (·.name)).toList

/-- Members are of classes that are declared: those of a declared block before the block. -/
structure UsesDeclared (s : State) : Prop where
  stack : ∀ b ∈ s.stack, ∀ m ∈ b.members.toList, m.className ∈ s.declaredNames
  blocks : DeclaredInOrder s.leafNames (s.blocks.toList.map (BlockClass.declare false))

/-- More classes without members, and members of declared classes in the open blocks. -/
theorem UsesDeclared.grow {s t : State} (h : s.UsesDeclared) (hblocks : t.blocks = s.blocks)
    (hleaves : ∀ name ∈ s.leafNames, name ∈ t.leafNames)
    (hstack : ∀ b ∈ t.stack, b ∈ s.stack ∨ ∀ m ∈ b.members.toList, m.className ∈ t.declaredNames) :
    t.UsesDeclared where
  stack b hb m hm := by
    rcases hstack b hb with hold | hnew
    · have hdeclared := h.stack b hold m hm
      unfold declaredNames at hdeclared ⊢
      rw [hblocks]
      rcases List.mem_append.1 hdeclared with hleaf | hblock
      · exact List.mem_append_left _ (hleaves _ hleaf)
      · exact List.mem_append_right _ hblock
    · exact hnew m hm
  blocks := by
    rw [hblocks]
    exact h.blocks.mono hleaves

/-- The innermost open block is declared behind the classes of all its members. -/
theorem UsesDeclared.close {s : State} (h : s.UsesDeclared) {b : BlockClass}
    {above : List BlockClass} (hstack : s.stack = b :: above) :
    UsesDeclared { s with stack := above, blocks := s.blocks.push b } where
  stack c hc m hm := by
    have hdeclared := h.stack c (hstack ▸ List.mem_cons_of_mem b hc) m hm
    simp only [declaredNames, leafNames, Array.toList_push, List.map_append] at hdeclared ⊢
    rw [← List.append_assoc]
    exact List.mem_append_left _ hdeclared
  blocks := by
    have hmembers := h.stack b (hstack ▸ List.mem_cons_self)
    rw [Array.toList_push, List.map_append, declaredInOrder_append]
    refine ⟨h.blocks, declaredInOrder_of_known fun d hd used hused => ?_⟩
    obtain rfl := List.mem_singleton.1 hd
    obtain ⟨m, hm, rfl⟩ := List.mem_map.1 hused
    have hdeclared := hmembers m hm
    rwa [List.map_map]

/-- What is built between two steps: the names in use are those of the classes, and the
open blocks and the register whose fields are being met are known by their names. -/
structure IsOrdered (register : Option String) (opened : List String) (s : State) : Prop where
  named : Named s.names s.classNames
  uses : s.UsesDeclared
  register_eq : s.register.map (·.name) = register
  opened_eq : s.stack.map (·.name) = opened
  opened_ne : opened ≠ []

namespace IsOrdered

variable {register : Option String} {opened : List String} {s : State}

theorem register_eq_none (h : s.IsOrdered none opened) : s.register = none :=
  Option.map_eq_none_iff.1 h.register_eq

theorem takeMemory (h : s.IsOrdered register opened) {c : MemoryClass} (hfree : c.name ∉ s.names)
    (hlegal : Identifier.isLegal c.name = true) :
    IsOrdered register opened
      { s with names := s.names.insert c.name, memories := s.memories.push c } where
  named := by
    refine h.named.take hfree hlegal (List.perm_iff_count.2 fun name => ?_)
    simp only [classNames, declaredNames, leafNames, Array.toList_push, List.map_append,
      List.map_cons, List.map_nil, List.count_append, List.count_cons, List.count_nil]
    omega
  uses := by
    refine h.uses.grow rfl (fun name hname => ?_) fun b hb => Or.inl hb
    simp only [leafNames, Array.toList_push, List.map_append, ← List.append_assoc]
    exact List.mem_append_left _ hname
  register_eq := h.register_eq
  opened_eq := h.opened_eq
  opened_ne := h.opened_ne

theorem openBlock (h : s.IsOrdered register opened) {name : String} (hfree : name ∉ s.names)
    (hlegal : Identifier.isLegal name = true) :
    IsOrdered register (name :: opened)
      { s with names := s.names.insert name, stack := { name } :: s.stack } where
  named := by
    refine h.named.take hfree hlegal (List.perm_iff_count.2 fun other => ?_)
    simp only [classNames, declaredNames, leafNames, List.map_cons, List.count_append,
      List.count_cons]
    omega
  uses := by
    refine h.uses.grow rfl (fun _ hleaf => hleaf) fun b hb => ?_
    rcases List.mem_cons.1 hb with rfl | hb
    · exact Or.inr (by simp)
    · exact Or.inl hb
  register_eq := h.register_eq
  opened_eq := by simp [h.opened_eq]
  opened_ne := by simp

theorem openRegister (h : s.IsOrdered none opened) {c : RegisterClass} (hfree : c.name ∉ s.names)
    (hlegal : Identifier.isLegal c.name = true) :
    IsOrdered (some c.name) opened
      { s with names := s.names.insert c.name, register := some c } where
  named := by
    refine h.named.take hfree hlegal (List.perm_iff_count.2 fun name => ?_)
    simp only [classNames, declaredNames, leafNames, h.register_eq_none, Option.map_some,
      Option.map_none, Option.toList_some, Option.toList_none, List.count_append, List.count_cons,
      List.count_nil]
    omega
  uses := h.uses.grow rfl (fun _ hleaf => hleaf) fun b hb => Or.inl hb
  register_eq := rfl
  opened_eq := h.opened_eq
  opened_ne := h.opened_ne

theorem addField (h : s.IsOrdered register opened) {c c' : RegisterClass}
    (hcurrent : s.register = some c) (hname : c'.name = c.name) :
    IsOrdered register opened { s with register := some c' } where
  named := by
    have hsame : classNames { s with register := some c' } = s.classNames := by
      simp [classNames, declaredNames, leafNames, hcurrent, hname]
    rw [hsame]
    exact h.named
  uses := h.uses.grow rfl (fun _ hleaf => hleaf) fun b hb => Or.inl hb
  register_eq := by rw [← h.register_eq, hcurrent, Option.map_some, Option.map_some, hname]
  opened_eq := h.opened_eq
  opened_ne := h.opened_ne

theorem closeRegister (h : s.IsOrdered register opened) {c : RegisterClass}
    (hcurrent : s.register = some c) :
    IsOrdered none opened { s with register := none, registers := s.registers.push c } where
  named := by
    refine h.named.perm (List.perm_iff_count.2 fun name => ?_)
    simp only [classNames, declaredNames, leafNames, hcurrent, Option.map_some, Option.map_none,
      Option.toList_some, Option.toList_none, Array.toList_push, List.map_append, List.map_cons,
      List.map_nil, List.count_append, List.count_cons, List.count_nil]
    omega
  uses := by
    refine h.uses.grow rfl (fun name hname => ?_) fun b hb => Or.inl hb
    simp only [leafNames, Array.toList_push, List.map_append, List.mem_append] at hname ⊢
    tauto
  register_eq := rfl
  opened_eq := h.opened_eq
  opened_ne := h.opened_ne

theorem closeBlock {name : String} (h : s.IsOrdered register (name :: opened))
    (hopened : opened ≠ []) {b : BlockClass} {above : List BlockClass}
    (hstack : s.stack = b :: above) :
    IsOrdered register opened { s with stack := above, blocks := s.blocks.push b } where
  named := by
    refine h.named.perm (List.perm_iff_count.2 fun name => ?_)
    simp only [classNames, declaredNames, leafNames, hstack, Array.toList_push, List.map_append,
      List.map_cons, List.map_nil, List.count_append, List.count_cons, List.count_nil]
    omega
  uses := h.uses.close hstack
  register_eq := h.register_eq
  opened_eq := by
    have heq := h.opened_eq
    rw [hstack, List.map_cons] at heq
    exact (List.cons.inj heq).2
  opened_ne := hopened

theorem addMember (h : s.IsOrdered register opened) {m : Member} {width : Option Nat}
    (hclass : m.className ∈ s.declaredNames) :
    IsOrdered register opened
      { s with stack := s.stack.modifyHead fun c => observing width (c.addMember m) } := by
  obtain ⟨c, above, hstack⟩ := List.exists_cons_of_ne_nil
    (fun hnil => h.opened_ne (by rw [← h.opened_eq, hnil, List.map_nil]) : s.stack ≠ [])
  have hnames : (s.stack.modifyHead fun c => observing width (c.addMember m)).map (·.name) =
      s.stack.map (·.name) := by
    simp [hstack, name_observing, BlockClass.addMember]
  refine ⟨?_, ?_, h.register_eq, hnames.trans h.opened_eq, h.opened_ne⟩
  · have hsame : classNames { s with
        stack := s.stack.modifyHead fun c => observing width (c.addMember m) } =
          s.classNames := by
      unfold classNames
      rw [hnames]
      rfl
    rw [hsame]
    exact h.named
  · refine h.uses.grow rfl (fun _ hleaf => hleaf) fun b hb => ?_
    simp only [hstack, List.modifyHead_cons, List.mem_cons] at hb ⊢
    rcases hb with rfl | hb
    · refine Or.inr fun m' hm' => ?_
      rw [members_observing, BlockClass.addMember, Array.toList_push] at hm'
      rcases List.mem_append.1 hm' with hm' | hm'
      · exact h.uses.stack c (hstack ▸ List.mem_cons_self) m' hm'
      · rw [List.mem_singleton.1 hm']
        exact hclass
    · exact Or.inl (Or.inr hb)

end IsOrdered

end State

/-! The steps of the emitter. -/

variable {may : Stop → Prop}

/-- Between two elements no register is being built. -/
def Idle (opened : List String) (s : State) : Prop := s.IsOrdered none opened

/-- While the fields of a register are met, it is being built. -/
def Registering (i : String × List String) (s : State) : Prop := s.IsOrdered (some i.1) i.2

theorem ensures_takeName {pre : State → Prop} (base suffix : String) :
    Ensures pre (takeName base suffix)
      (fun name t => ∃ s, pre s ∧ name = freeName s.names base suffix ∧
        t = { s with names := s.names.insert name }) may :=
  .built_bind fun s hs => Ensures.bind
    (m := fun _ t => t =
      { s with names := s.names.insert (freeName s.names base suffix) })
    (.build fun a ha => by rw [ha]) fun _ => .pure fun _ ht => ⟨s, hs, rfl, ht⟩

theorem ensures_takeMemoryClass (e : Element) (opened : List String) :
    Ensures (Idle opened) (takeMemoryClass e)
      (fun name s => Idle opened s ∧ name ∈ s.declaredNames) may := by
  refine (ensures_takeName _ _).bind fun name => Ensures.bind
    (m := fun _ s => Idle opened s ∧ name ∈ s.declaredNames) (.build ?_) fun _ => .pure fun _ h => h
  rintro _ ⟨s, hs, hname, rfl⟩
  have hfree : name ∉ s.names := hname ▸ not_mem_freeName _ _ _
  have hlegal : Identifier.isLegal name = true :=
    hname ▸ isLegal_freeName _ _ (by decide)
  refine ⟨hs.takeMemory (c := { name, entries := _, width := _, rights := _ }) hfree hlegal, ?_⟩
  simp [State.declaredNames, State.leafNames]

/-- A member of a declared class. -/
theorem ensures_inParent {m : Member} {width : Option Nat} {register : Option String}
    {opened : List String} :
    Ensures (fun s => s.IsOrdered register opened ∧ m.className ∈ s.declaredNames)
      (inParent fun parent => observing width (parent.addMember m))
      (fun _ => State.IsOrdered register opened) may := by
  refine .built_bind fun s hs => .passed _ ?_ (.build fun a ha => ?_)
  · rw [List.isEmpty_iff]
    intro hnil
    exact hs.1.opened_ne (by rw [← hs.1.opened_eq, hnil, List.map_nil])
  · rw [ha]
    exact hs.1.addMember hs.2

/-- A node whose elements are not too many for a list. -/
def IsListed (n : Node) : Prop := n.elementCount < Word.listLimit

theorem isListed_of_isListable {n : Node} {parent : Nat} (h : n.isListable parent = true) :
    IsListed n := by
  have hlength : (n.elementAddresses parent).length = n.elementCount := by
    unfold Node.elementAddresses Node.elementCount
    cases n.array <;> simp
  rw [IsListed, ← hlength]
  exact ((n.isListable_iff parent).1 h).1

/-- A member is added only if its elements can be listed. -/
theorem ensures_addMember (hoverflow : may .overflow) (e : Element) (kind : MemberKind)
    (className : String) (rights : Rights) (width : Option Nat) (opened : List String) :
    Ensures (fun s => Idle opened s ∧ className ∈ s.declaredNames)
      (addMember e kind className rights width) (fun _ s => Idle opened s ∧ IsListed e.node)
      may := by
  unfold addMember
  split
  case isTrue hlistable =>
    exact Ensures.weaken (ensures_inParent (m := memberOf e kind className rights))
      (fun _ h => h) fun _ _ h => ⟨h, isListed_of_isListable hlistable⟩
  case isFalse =>
    exact Ensures.bind (m := fun _ _ => False) (.stop hoverflow) fun _ => .of_not fun _ => id

/-- A block that is open while its contents are met is declared behind them. -/
theorem ensures_takeBlockClass (e : Element) {inside : UvmM Unit} {fact : Prop}
    (hinside : Settles Idle inside fact may) (opened : List String) :
    Ensures (Idle opened) (takeBlockClass e inside)
      (fun finished s => (Idle opened s ∧ finished.name ∈ s.declaredNames) ∧ fact) may := by
  refine (ensures_takeName _ _).bind fun name => Ensures.bind
    (m := fun _ s => Idle (name :: opened) s ∧ opened ≠ []) (.build ?_) fun _ =>
      .of_each fun s₀ hs₀ => ?_
  · rintro _ ⟨s, hs, hname, rfl⟩
    have hfree : name ∉ s.names := hname ▸ not_mem_freeName _ _ _
    have hlegal : Identifier.isLegal name = true :=
      hname ▸ isLegal_freeName _ _ (by decide)
    exact ⟨hs.openBlock hfree hlegal, hs.opened_ne⟩
  · have hrun : Ensures (· = s₀) inside (fun _ s => Idle (name :: opened) s ∧ fact) may :=
      (hinside (name :: opened)).weaken (fun a ha => ha ▸ hs₀.1) fun _ _ h => h
    refine hrun.bind fun _ => .built_bind fun s hs => ?_
    obtain ⟨hordered, hfact⟩ := hs
    cases hstack : s.stack with
    | nil =>
      have hopened := hordered.opened_eq
      simp [hstack] at hopened
    | cons finished above =>
      refine Ensures.bind (m := fun _ t =>
        (Idle opened t ∧ finished.name ∈ t.declaredNames) ∧ fact) (.build fun a ha => ?_)
          fun _ => .pure fun _ h => h
      rw [ha]
      refine ⟨⟨hordered.closeBlock hs₀.2 hstack, ?_⟩, hfact⟩
      simp [State.declaredNames]

theorem settles_addressBlock (e : Element) {inside : UvmM Unit} {fact : Prop}
    (hmem : e.node.kind = .mem → fact) (hinside : Settles Idle inside fact may) :
    Settles Idle (addressBlock e inside) fact may := by
  refine (Settles.of_keeps fun _ => .resetBusWidth).next fun _ _ =>
    (Settles.of_keeps fun _ => .info _).next fun _ _ => ?_
  split
  case isTrue hkind =>
    intro opened
    refine (ensures_takeMemoryClass e opened).bind fun className => ?_
    exact ensures_inParent.weaken (fun _ h => h) fun _ _ h => ⟨h, hmem hkind⟩
  case isFalse =>
    intro opened
    refine (ensures_takeBlockClass e hinside opened).bind fun finished =>
      Ensures.busWidth.bind fun width => .of_each fun s hs => ?_
    exact ensures_inParent.weaken (fun _ h => h ▸ hs.1) fun _ _ h => ⟨h, hs.2⟩

theorem settles_registerFile (hoverflow : may .overflow) (e : Element) {inside : UvmM Unit}
    {fact : Prop} (hinside : Settles Idle inside fact may) :
    Settles Idle (do
      let finished ← takeBlockClass e inside
      addMember e .block finished.name .rw finished.width) (fact ∧ IsListed e.node) may := by
  intro opened
  refine (ensures_takeBlockClass e hinside opened).bind fun finished => .of_each fun s hs => ?_
  exact (ensures_addMember hoverflow e _ _ _ _ opened).weaken (fun _ h => h ▸ hs.1)
    fun _ _ h => ⟨h.1, hs.2, h.2⟩

theorem settles_memory (hoverflow : may .overflow) (e : Element) :
    Settles Idle (do
      let className ← takeMemoryClass e
      addMember e .memory className (.ofAccess e.node.softwareAccess) none) (IsListed e.node) may :=
  fun opened => (ensures_takeMemoryClass e opened).bind fun _ =>
    ensures_addMember hoverflow e _ _ _ _ opened

theorem settles_fieldMember (hoverflow : may .overflow) (f : Field) (access : AccessCode)
    (e : Element) : Settles Registering (fieldMember f access e) True may := by
  refine .of_keeps fun i => .built_bind fun s hs => ?_
  cases hcurrent : s.register with
  | none =>
    have hregister := hs.register_eq
    simp [hcurrent] at hregister
  | some current =>
    refine (Ensures.checked hoverflow).bind fun width => .build fun a ha => ?_
    rw [ha.2]
    exact hs.addField hcurrent rfl

theorem settles_registerMember (hoverflow : may .overflow) {e : Element} (hmay : e.MayRefuse may)
    {inside : UvmM Unit} (hinside : Settles Registering inside True may) :
    Settles Idle (registerMember e inside) (e.node.IsSpaced ∧ IsListed e.node) may := by
  refine (settles_checkRegisterArray hmay).next fun hspaced _ => ?_
  refine Settles.imp (fun opened => ?_) fun hlisted => ⟨hspaced, hlisted⟩
  refine (ensures_takeName _ _).bind fun name => Ensures.bind
    (m := fun _ => Registering (name, opened)) (.build ?_) fun _ =>
      (hinside (name, opened)).bind fun _ => .built_bind fun s hs => ?_
  · rintro _ ⟨s, hs, hname, rfl⟩
    have hfree : name ∉ s.names := hname ▸ not_mem_freeName _ _ _
    have hlegal : Identifier.isLegal name = true :=
      hname ▸ isLegal_freeName _ _ (by decide)
    exact hs.openRegister (c := { name, width := _ }) hfree hlegal
  · have hregister := hs.1.register_eq
    cases hcurrent : s.register with
    | none => simp [hcurrent] at hregister
    | some finished =>
      rw [hcurrent] at hregister
      obtain rfl : finished.name = name := by simpa using hregister
      refine Ensures.bind (m := fun _ t => Idle opened t ∧ finished.name ∈ t.declaredNames)
        (.build fun a ha => ?_) fun _ => (Ensures.observeBusWidth _).bind fun _ =>
          ensures_addMember hoverflow e _ _ _ _ opened
      rw [ha]
      refine ⟨hs.1.closeRegister hcurrent, ?_⟩
      simp [State.declaredNames, State.leafNames]

/-- The name of the model, which is the first that is taken. -/
def modelName (top : Node) : String := Identifier.systemVerilog top.name ++ "_reg_model"

theorem ensures_start (options : UvmOptions) (context : Context) :
    Ensures (· = (emitter options).initial) ((emitter options).start context)
      (fun _ => Idle [modelName context.top]) may := by
  refine (ensures_takeName _ _).bind fun name => .build ?_
  rintro _ ⟨s, hs, hname, rfl⟩
  obtain rfl : s = {} := hs
  have hlegal : Identifier.isLegal name = true := hname ▸ isLegal_freeName _ _ (by decide)
  obtain rfl : name = modelName context.top := hname.trans (freeName_reg_model _)
  have hnone : Named ∅ [] := ⟨List.nodup_nil, by simp, by simp⟩
  refine ⟨?_, ⟨fun b hb => ?_, trivial⟩, rfl, rfl, by simp⟩
  · exact hnone.take (by simp) hlegal (List.Perm.refl _)
  · obtain rfl := List.mem_singleton.1 hb
    simp

theorem guards (options : UvmOptions) (hoverflow : may .overflow) :
    (emitter options).Guards Idle Registering IsListed may where
  overflow := hoverflow
  single n harray := by
    rw [IsListed, Node.elementCount, harray]
    decide
  start context := ⟨_, ensures_start options context⟩
  block e _ _ hmem hinside := settles_addressBlock e hmem hinside
  registerFile _ e _ _ hinside := settles_registerFile hoverflow e hinside
  register _ _ _ hmay hinside := settles_registerMember hoverflow hmay hinside
  memory _ e := settles_memory hoverflow e
  field f access e := settles_fieldMember hoverflow f access e
  finish context opened := by
    refine .built_bind fun s hs => ?_
    cases hstack : s.stack with
    | nil =>
      have hopened := hs.opened_eq
      rw [hstack, List.map_nil] at hopened
      exact absurd hopened.symm hs.opened_ne
    | cons model above => exact .pure fun _ _ => trivial

/-! The package as a whole. -/

/-- What is left in order at the end of the walk is a closed package. -/
theorem Idle.package {s : State} {top : Node} (h : Idle [modelName top] s) {model : BlockClass}
    {above : List BlockClass} (hstack : s.stack = model :: above) (name : String) :
    model.name = modelName top ∧
      Named s.names ((s.package name top.name model).declarations.map Declaration.name) ∧
      DeclaredInOrder ["uvm_reg_field"] (s.package name top.name model).declarations := by
  have hopened := h.opened_eq
  rw [hstack, List.map_cons, List.cons.injEq, List.map_eq_nil_iff] at hopened
  obtain ⟨hmodel, rfl⟩ := hopened
  have hnames : (s.package name top.name model).declarations.map Declaration.name =
      s.classNames := by
    simp [Package.declarations, State.package, State.classNames, State.declaredNames,
      State.leafNames, hstack, h.register_eq_none, RegisterClass.declare, MemoryClass.declare,
      BlockClass.declare, Function.comp_def]
  have hleaves : ["uvm_reg_field"] ++
      (s.registers.toList.map RegisterClass.declare ++
        s.memories.toList.map MemoryClass.declare).map Declaration.name =
          "uvm_reg_field" :: s.leafNames := by
    simp [State.leafNames, RegisterClass.declare, MemoryClass.declare, Function.comp_def]
  refine ⟨hmodel, hnames ▸ h.named, ?_⟩
  rw [Package.declarations, declaredInOrder_append, declaredInOrder_append,
    declaredInOrder_append]
  refine ⟨⟨⟨declaredInOrder_registers (by simp) _, declaredInOrder_memories _ _⟩, ?_⟩, ?_⟩
  · rw [State.package, hleaves]
    exact h.uses.blocks.mono fun name hname => List.mem_cons_of_mem _ hname
  · refine declaredInOrder_of_known fun d hd used hused => ?_
    obtain rfl := List.mem_singleton.1 hd
    obtain ⟨m, hm, rfl⟩ := List.mem_map.1 hused
    have hdeclared := h.uses.stack model (hstack ▸ List.mem_cons_self) m hm
    rw [State.package, List.map_append, ← List.append_assoc, hleaves, List.map_map]
    exact List.mem_cons_of_mem _ hdeclared

/-- An export writes the package of its last state, which is in order. -/
theorem idle_of_produce {options : UvmOptions} {top : Node} {destination : Path} {a : Artifact}
    {s : Session State} (h : (emitter options).produce top destination = (.ok a, s)) :
    Idle [modelName top] s.state ∧
      ∃ package, s.state.written? options top = some package ∧ a = .text package.render := by
  obtain ⟨⟨_, hvalid⟩, hsteps⟩ := (emitter options).produce_eq_ok_iff.1 h
  obtain ⟨_, s₁, hstart, hrest⟩ := yields_bind.1 hsteps
  obtain ⟨_, s₂, hvisit, hfinish⟩ := yields_bind.1 hrest
  have hbegun : Ensures _ _ _ fun _ => True :=
    ensures_start options ((emitter options).context top destination)
  have hopened := hbegun.yields _ () s₁ rfl hstart
  have hguards : (emitter options).Guards Idle Registering IsListed fun _ => True :=
    guards options trivial
  have hwalk := hguards.visitTop (Node.isValid_of_validate hvalid)
    (fun _ _ _ _ _ _ => trivial) [modelName top]
  obtain ⟨hordered, _⟩ := hwalk.yields s₁ () s₂ hopened hvisit
  obtain ⟨built, s₃, hbuilt, hpure⟩ := yields_bind.1 hfinish
  obtain ⟨rfl, rfl⟩ := yields_built.1 hbuilt
  cases hstack : s₂.state.stack with
  | nil => simp [hstack] at hpure
  | cons model above =>
    simp only [hstack, yields_pure] at hpure
    obtain ⟨rfl, rfl⟩ := hpure
    exact ⟨hordered, _, State.written?_of_stack hstack options top, rfl⟩

end RegisterMap.Uvm
