import Mathlib.Data.List.Nodup
import RegisterMap.Proofs.Step
import RegisterMap.Proofs.Uvm.Elaborate
import RegisterMap.Proofs.Valid
import RegisterMap.Uvm.Emitter

/-!
What building a package leaves behind. A step keeps the classes, or it lets the
innermost block grow: members join it, and classes that are new by their names are
declared. A name that is taken is in use from then on, so that no later class gets
in the way of an earlier one, and what a member maps stays as it is.
-/

namespace RegisterMap.Uvm

open ExportM

/-- The classes of a state around a model, as a package. -/
def State.package (s : State) (name top : String) (model : BlockClass) : Package where
  name := name
  top := top
  registers := s.registers.toList
  memories := s.memories.toList
  blocks := s.blocks.toList
  model := model

/-- The package that an export has built in its last state. -/
def State.written? (s : State) (options : UvmOptions) (top : Node) : Option Package :=
  s.stack.head?.map (s.package (packageName options top.name) top.name)

theorem State.written?_of_stack {s : State} {model : BlockClass} {above : List BlockClass}
    (h : s.stack = model :: above) (options : UvmOptions) (top : Node) :
    s.written? options top = some (s.package (packageName options top.name) top.name model) := by
  rw [written?, h, List.head?_cons, Option.map_some]

/-- An array of members has elements, and an index for each. -/
def Member.IsSound (m : Member) : Prop := ∀ a, m.shape = some a → a.IsSound

/-- What members map in a state, from the path and the address of their block. -/
def State.mappings (s : State) (members : List Member) (path : List Instance) (base : Nat) :
    List Mapping :=
  members.flatMap (Member.mappings (mapped s.blocks.toList.reverse) path base)

/-- Names stay in use, and the classes that are declared have names that were free. -/
structure Extends (s t : State) : Prop where
  mem_names : ∀ name ∈ s.names, name ∈ t.names
  declares : ∃ new : List BlockClass, t.blocks.toList = s.blocks.toList ++ new ∧
    (new.map BlockClass.name).Nodup ∧
    ∀ b ∈ new, b.name ∉ s.names ∧ b.name ∈ t.names ∧ ∀ m ∈ b.members.toList, m.IsSound

/-- The blocks that are being built are as they were. -/
structure Keeps (s t : State) : Prop extends Extends s t where
  stack_eq : t.stack = s.stack

/-- Members of known classes join the innermost block. -/
structure Grows (s t : State) (members : List Member) : Prop extends Extends s t where
  stack_eq : ∃ c c' above, s.stack = c :: above ∧ t.stack = c' :: above ∧ c'.name = c.name ∧
    c'.members.toList = c.members.toList ++ members
  mem_classes : ∀ m ∈ members, m.kind = .block → m.className ∈ t.names
  sound : ∀ m ∈ members, m.IsSound

theorem extends_of_blocks_eq {s t : State} (hblocks : t.blocks = s.blocks)
    (hnames : ∀ name ∈ s.names, name ∈ t.names) : Extends s t :=
  ⟨hnames, [], by simp [hblocks], by simp, by simp⟩

theorem Extends.refl (s : State) : Extends s s := extends_of_blocks_eq rfl fun _ h => h

theorem Extends.trans {s t u : State} (h : Extends s t) (h' : Extends t u) : Extends s u := by
  obtain ⟨new, hblocks, hnodup, hnew⟩ := h.declares
  obtain ⟨new', hblocks', hnodup', hnew'⟩ := h'.declares
  refine ⟨fun name hname => h'.mem_names name (h.mem_names name hname),
    ⟨new ++ new', by rw [hblocks', hblocks, List.append_assoc], ?_, ?_⟩⟩
  · rw [List.map_append, List.nodup_append]
    refine ⟨hnodup, hnodup', ?_⟩
    intro name hold name' hlater heq
    obtain ⟨b, hb, rfl⟩ := List.mem_map.1 hold
    obtain ⟨b', hb', rfl⟩ := List.mem_map.1 hlater
    exact (hnew' b' hb').1 (heq ▸ (hnew b hb).2.1)
  · intro b hb
    rcases List.mem_append.1 hb with hb | hb
    · obtain ⟨hfresh, hused, hsound⟩ := hnew b hb
      exact ⟨hfresh, h'.mem_names _ hused, hsound⟩
    · obtain ⟨hfresh, hused, hsound⟩ := hnew' b hb
      exact ⟨fun hname => hfresh (h.mem_names _ hname), hused, hsound⟩

/-- A class whose name has been taken before those of the classes inside it. -/
theorem Extends.declare {s s' t : State} {b : BlockClass} {stack : List BlockClass}
    (h : Extends s' t) (hblocks : s'.blocks = s.blocks)
    (hnames : ∀ name, name ∈ s'.names ↔ name = b.name ∨ name ∈ s.names)
    (hfree : b.name ∉ s.names) (hsound : ∀ m ∈ b.members.toList, m.IsSound) :
    Extends s { t with stack, blocks := t.blocks.push b } := by
  obtain ⟨new, hdeclared, hnodup, hnew⟩ := h.declares
  have hused : b.name ∈ t.names := h.mem_names _ ((hnames b.name).2 (Or.inl rfl))
  refine ⟨fun name hname => h.mem_names name ((hnames name).2 (Or.inr hname)),
    ⟨new ++ [b], ?_, ?_, ?_⟩⟩
  · rw [Array.toList_push, hdeclared, hblocks, List.append_assoc]
  · rw [List.map_append, List.nodup_append]
    refine ⟨hnodup, List.nodup_singleton b.name, ?_⟩
    intro name hinside name' hlast heq
    obtain ⟨c, hc, rfl⟩ := List.mem_map.1 hinside
    rw [List.map_singleton, List.mem_singleton] at hlast
    exact (hnew c hc).1 ((hnames c.name).2 (Or.inl (heq.trans hlast)))
  · intro c hc
    rcases List.mem_append.1 hc with hc | hc
    · obtain ⟨hfresh, hmember, hvalid⟩ := hnew c hc
      exact ⟨fun hname => hfresh ((hnames c.name).2 (Or.inr hname)), hmember, hvalid⟩
    · rw [List.mem_singleton.1 hc]
      exact ⟨hfree, hused, hsound⟩

/-- Later classes do not change what members map. -/
theorem Extends.mappings_eq {s t : State} {members : List Member} (h : Extends s t)
    (hclasses : ∀ m ∈ members, m.kind = .block → m.className ∈ s.names)
    (path : List Instance) (base : Nat) :
    t.mappings members path base = s.mappings members path base := by
  obtain ⟨new, hblocks, _, hnew⟩ := h.declares
  unfold State.mappings
  apply List.flatMap_congr
  intro m hm
  apply Member.mappings_congr
  intro hkind
  rw [hblocks, List.reverse_append]
  apply mapped_append_of_fresh
  intro b hb hname
  have hfresh := (hnew b (List.mem_reverse.1 hb)).1
  exact hfresh (hname ▸ hclasses m hm hkind)

theorem Keeps.refl (s : State) : Keeps s s := ⟨Extends.refl s, rfl⟩

theorem Keeps.trans {s t u : State} (h : Keeps s t) (h' : Keeps t u) : Keeps s u :=
  ⟨h.toExtends.trans h'.toExtends, h'.stack_eq.trans h.stack_eq⟩

theorem Keeps.grows {s t u : State} {members : List Member} (h : Keeps s t)
    (h' : Grows t u members) : Grows s u members :=
  ⟨h.toExtends.trans h'.toExtends, h.stack_eq ▸ h'.stack_eq, h'.mem_classes, h'.sound⟩

theorem Grows.refl {s : State} (h : s.stack ≠ []) : Grows s s [] := by
  obtain ⟨c, above, hstack⟩ := List.exists_cons_of_ne_nil h
  exact ⟨Extends.refl s, ⟨c, c, above, hstack, hstack, rfl, by simp⟩, by simp, by simp⟩

theorem Grows.stack_ne_nil {s t : State} {members : List Member} (h : Grows s t members) :
    t.stack ≠ [] := by
  obtain ⟨_, c', above, _, hstack, _⟩ := h.stack_eq
  rw [hstack]
  exact List.cons_ne_nil c' above

theorem Grows.trans {s t u : State} {members more : List Member} (h : Grows s t members)
    (h' : Grows t u more) : Grows s u (members ++ more) := by
  obtain ⟨c, c', above, hs, ht, hname, hmembers⟩ := h.stack_eq
  obtain ⟨d, d', above', ht', hu, hname', hmembers'⟩ := h'.stack_eq
  obtain ⟨rfl, rfl⟩ := List.cons.inj (ht.symm.trans ht')
  refine ⟨h.toExtends.trans h'.toExtends,
    ⟨c, d', above, hs, hu, hname'.trans hname, by
      rw [hmembers', hmembers, List.append_assoc]⟩, ?_, ?_⟩
  · intro m hm hkind
    rcases List.mem_append.1 hm with hm | hm
    · exact h'.mem_names _ (h.mem_classes m hm hkind)
    · exact h'.mem_classes m hm hkind
  · intro m hm
    rcases List.mem_append.1 hm with hm | hm
    · exact h.sound m hm
    · exact h'.sound m hm

/-! Steps that keep the blocks. -/

/-- A step after which the blocks are as they were. -/
def Keeping {α : Type} (step : UvmM α) : Prop :=
  ∀ s a t, Yields step s a t → Keeps s.state t.state

theorem yields_takeName {base suffix name : String} {s t : Session State} :
    Yields (takeName base suffix) s name t ↔
      freeName s.state.names base suffix = name ∧
        { s with state := { s.state with names := s.state.names.insert name } } = t := by
  unfold takeName
  simp only [yields_bind, yields_built, yields_build, yields_pure]
  constructor
  · rintro ⟨_, _, ⟨rfl, rfl⟩, _, _, rfl, rfl, rfl⟩
    exact ⟨rfl, rfl⟩
  · rintro ⟨rfl, rfl⟩
    exact ⟨s.state, s, ⟨rfl, rfl⟩, (), _, rfl, rfl, rfl⟩

/-- The first name that is taken is the model's. -/
theorem freeName_reg_model (name : String) :
    freeName ∅ name "reg_model" = name ++ "_reg_model" := by
  change name ++ "_" ++ "reg_model" = _
  rw [String.append_assoc]
  rfl

theorem keeping_pure {α : Type} (a : α) : Keeping (pure a) := by
  intro s _ t h
  obtain ⟨_, rfl⟩ := yields_pure.1 h
  exact Keeps.refl s.state

theorem keeping_bind {α β : Type} {step : UvmM α} {next : α → UvmM β} (hstep : Keeping step)
    (hnext : ∀ a, Keeping (next a)) : Keeping (step >>= next) := by
  intro s b u h
  obtain ⟨a, t, hfirst, hrest⟩ := yields_bind.1 h
  exact (hstep s a t hfirst).trans (hnext a t b u hrest)

theorem keeping_forM {α : Type} {items : List α} {step : α → UvmM Unit}
    (h : ∀ a ∈ items, Keeping (step a)) : Keeping (forM items step) := by
  induction items with
  | nil => exact keeping_pure ()
  | cons item rest ih =>
    rw [List.forM_cons]
    exact keeping_bind (h item List.mem_cons_self) fun _ =>
      ih fun a ha => h a (List.mem_cons_of_mem item ha)

/-- A step that leaves the whole state alone. -/
theorem keeping_of_state_eq {α : Type} {step : UvmM α}
    (h : ∀ s a t, Yields step s a t → t.state = s.state) : Keeping step := by
  intro s a t hstep
  rw [h s a t hstep]
  exact Keeps.refl s.state

theorem keeping_built : Keeping built :=
  keeping_of_state_eq fun _ _ _ h => by rw [(yields_built.1 h).2]

theorem keeping_checked {α : Type} (o : Option α) : Keeping (checked o) :=
  keeping_of_state_eq fun _ _ _ h => by rw [(yields_checked.1 h).2]

theorem keeping_fail {α : Type} (e : ExportError) : Keeping (fail e : UvmM α) :=
  fun _ _ _ h => absurd h not_yields_fail

theorem keeping_build {f : State → State} (hstack : ∀ s, (f s).stack = s.stack)
    (hblocks : ∀ s, (f s).blocks = s.blocks)
    (hnames : ∀ s, ∀ name ∈ s.names, name ∈ (f s).names) : Keeping (build f) := by
  intro s _ t h
  obtain rfl := yields_build.1 h
  exact ⟨extends_of_blocks_eq (hblocks s.state) (hnames s.state), hstack s.state⟩

theorem keeping_takeName (base suffix : String) : Keeping (takeName base suffix) := by
  refine keeping_bind keeping_built fun built => keeping_bind (keeping_build ?_ ?_ ?_) fun _ =>
    keeping_pure _
  · exact fun _ => rfl
  · exact fun _ => rfl
  · exact fun _ _ h => Std.TreeSet.mem_insert.2 (Or.inr h)

theorem keeping_takeMemoryClass (e : Element) : Keeping (takeMemoryClass e) := by
  refine keeping_bind (keeping_takeName _ _) fun name => keeping_bind (keeping_build ?_ ?_ ?_)
    fun _ => keeping_pure _
  · exact fun _ => rfl
  · exact fun _ => rfl
  · exact fun _ _ h => h

theorem keeping_checkRegisterArray (e : Element) : Keeping (checkRegisterArray e) := by
  apply keeping_of_state_eq
  intro s check t h
  obtain ⟨_, _, rfl⟩ := yields_checkRegisterArray.1 h
  exact Session.state_tellGap s e

theorem keeping_observeBusWidth (width : Nat) : Keeping (observeBusWidth width) :=
  keeping_of_state_eq fun _ _ _ h => by rw [← yields_observeBusWidth.1 h]; rfl

theorem keeping_fieldMember (f : Field) (access : AccessCode) (register : Element) :
    Keeping (fieldMember f access register) := by
  apply keeping_bind keeping_built
  intro s
  cases s.register with
  | none => exact keeping_fail _
  | some current =>
    refine keeping_bind (keeping_checked _) fun width => keeping_build ?_ ?_ ?_
    · exact fun _ => rfl
    · exact fun _ => rfl
    · exact fun _ _ h => h

/-! Steps that let a block grow. -/

/-- Members that join the innermost block map what is expected of them, wherever an
instance of the block is placed. -/
def Fills {ι : Type} (step : UvmM Unit) (place : ι → List Instance × Nat)
    (expected : ι → List Mapping) : Prop :=
  ∀ s t, s.state.stack ≠ [] → Yields step s () t →
    ∃ members, Grows s.state t.state members ∧
      ∀ i, t.state.mappings members (place i).1 (place i).2 = expected i

variable {ι : Type} {place : ι → List Instance × Nat}

theorem fills_pure : Fills (pure ()) place fun _ => [] := by
  intro s t hstack h
  obtain ⟨_, rfl⟩ := yields_pure.1 h
  exact ⟨[], Grows.refl hstack, fun _ => rfl⟩

theorem Fills.andThen {first second : UvmM Unit} {x y : ι → List Mapping}
    (hfirst : Fills first place x) (hsecond : Fills second place y) :
    Fills (first >>= fun _ => second) place fun i => x i ++ y i := by
  intro s u hstack h
  obtain ⟨_, t, hstep, hrest⟩ := yields_bind.1 h
  obtain ⟨members, hgrows, hmapped⟩ := hfirst s t hstack hstep
  obtain ⟨more, hgrows', hmapped'⟩ := hsecond t u hgrows.stack_ne_nil hrest
  refine ⟨members ++ more, hgrows.trans hgrows', ?_⟩
  intro i
  have hkept := hgrows'.toExtends.mappings_eq hgrows.mem_classes (place i).1 (place i).2
  rw [State.mappings, List.flatMap_append]
  exact congrArg₂ (· ++ ·) (hkept.trans (hmapped i)) (hmapped' i)

theorem fills_forM {α : Type} {items : List α} {step : α → UvmM Unit}
    {expected : α → ι → List Mapping} (h : ∀ a ∈ items, Fills (step a) place (expected a)) :
    Fills (forM items step) place fun i => items.flatMap fun a => expected a i := by
  induction items with
  | nil => exact fills_pure
  | cons item rest ih =>
    have hfirst := h item List.mem_cons_self
    have hrest := ih fun a ha => h a (List.mem_cons_of_mem item ha)
    simpa only [List.forM_cons, List.flatMap_cons] using hfirst.andThen hrest

/-- A step before growth that keeps the blocks. -/
theorem fills_of_keeping {α : Type} {step : UvmM α} {next : α → UvmM Unit}
    {expected : ι → List Mapping} (hstep : Keeping step)
    (hnext : ∀ a, Fills (next a) place expected) : Fills (step >>= next) place expected := by
  intro s u hstack h
  obtain ⟨a, t, hfirst, hrest⟩ := yields_bind.1 h
  have hkeeps := hstep s a t hfirst
  have hstack' : t.state.stack ≠ [] := by rwa [hkeeps.stack_eq]
  obtain ⟨members, hgrows, hmapped⟩ := hnext a t u hstack' hrest
  exact ⟨members, hkeeps.grows hgrows, hmapped⟩

theorem fills_fail (e : ExportError) (expected : ι → List Mapping) :
    Fills (fail e) place expected :=
  fun _ _ _ h => absurd h not_yields_fail

theorem yields_inParent {change : BlockClass → BlockClass} {s t : Session State} {u : Unit}
    (h : Yields (inParent change) s u t) :
    ∃ c above, s.state.stack = c :: above ∧
      t = { s with state := { s.state with stack := change c :: above } } := by
  obtain ⟨built, v, hbuilt, hrest⟩ := yields_bind.1 h
  obtain ⟨rfl, rfl⟩ := yields_built.1 hbuilt
  cases hstack : s.state.stack with
  | nil => simp [hstack, yields_bind] at hrest
  | cons c above =>
    simp only [hstack, List.isEmpty_cons, Bool.false_eq_true, if_false, yields_build,
      List.modifyHead_cons] at hrest
    exact ⟨c, above, rfl, hrest.symm⟩

theorem name_observing (width : Option Nat) (c : BlockClass) :
    (observing width c).name = c.name := by
  cases width <;> rfl

theorem members_observing (width : Option Nat) (c : BlockClass) :
    (observing width c).members = c.members := by
  cases width <;> rfl

/-- A member that joins the innermost block. -/
theorem grows_inParent {m : Member} {width : Option Nat} {s t : Session State} {u : Unit}
    (h : Yields (inParent fun parent => observing width (parent.addMember m)) s u t)
    (hclass : m.kind = .block → m.className ∈ s.state.names) (hsound : m.IsSound) :
    Grows s.state t.state [m] := by
  obtain ⟨c, above, hstack, rfl⟩ := yields_inParent h
  refine ⟨extends_of_blocks_eq rfl fun _ hname => hname, ?_, ?_, ?_⟩
  · refine ⟨c, _, above, hstack, rfl, name_observing width _, ?_⟩
    rw [members_observing, BlockClass.addMember, Array.toList_push]
  · intro m' hm' hkind
    rw [List.mem_singleton.1 hm'] at hkind ⊢
    exact hclass hkind
  · intro m' hm'
    rwa [List.mem_singleton.1 hm']

/-- The member that stands for an element in the block around it. -/
def memberOf (e : Element) (kind : MemberKind) (className : String) (rights : Rights) : Member where
  kind := kind
  name := Identifier.systemVerilog e.node.name
  className := className
  shape := e.node.array
  offset := e.node.offset
  rights := rights

theorem grows_addMember {e : Element} {kind : MemberKind} {className : String} {rights : Rights}
    {width : Option Nat} {s t : Session State} {u : Unit}
    (h : Yields (addMember e kind className rights width) s u t)
    (hclass : kind = .block → className ∈ s.state.names) (hvalid : e.node.IsValid) :
    Grows s.state t.state [memberOf e kind className rights] := by
  unfold addMember at h
  split at h
  · have hsound : (memberOf e kind className rights).IsSound := fun a ha =>
      hvalid.array_isSound ha
    exact grows_inParent h hclass hsound
  · simp [yields_bind] at h

/-- A block that is built while its contents are met. It joins the classes that are
declared under a name of its own. -/
theorem keeps_takeBlockClass {e : Element} {inside : UvmM Unit} {expected : ι → List Mapping}
    (hinside : Fills inside place expected) {s t : Session State} {finished : BlockClass}
    (h : Yields (takeBlockClass e inside) s finished t) :
    Keeps s.state t.state ∧ finished.name ∈ t.state.names ∧
      ∀ i, mapped t.state.blocks.toList.reverse finished.name (place i).1 (place i).2 =
        expected i := by
  obtain ⟨name, s₁, htake, hrest⟩ := yields_bind.1 h
  obtain ⟨hname, rfl⟩ := yields_takeName.1 htake
  obtain ⟨_, s₂, hopen, hrest⟩ := yields_bind.1 hrest
  obtain rfl := yields_build.1 hopen
  obtain ⟨_, s₃, hmet, hrest⟩ := yields_bind.1 hrest
  obtain ⟨members, hgrows, hmapped⟩ := hinside _ s₃ (by simp) hmet
  obtain ⟨c, c', above, hstack, hstack', hsame, hmembers⟩ := hgrows.stack_eq
  obtain ⟨rfl, rfl⟩ := List.cons.inj hstack
  obtain ⟨built, s₄, hbuilt, hrest⟩ := yields_bind.1 hrest
  obtain ⟨rfl, rfl⟩ := yields_built.1 hbuilt
  simp only [hstack'] at hrest
  obtain ⟨_, s₅, hclose, hpure⟩ := yields_bind.1 hrest
  obtain rfl := yields_build.1 hclose
  obtain ⟨rfl, rfl⟩ := yields_pure.1 hpure
  have hfree : c'.name ∉ s.state.names := by
    rw [hsame, ← hname]
    exact not_mem_freeName _ _ _
  have hnames (other : String) :
      other ∈ s.state.names.insert name ↔ other = c'.name ∨ other ∈ s.state.names := by
    rw [Std.TreeSet.mem_insert, Std.LawfulEqCmp.compare_eq_iff_eq, hsame, eq_comm]
  have hsound : ∀ m ∈ c'.members.toList, m.IsSound := by
    rw [hmembers]
    exact hgrows.sound
  refine ⟨⟨hgrows.toExtends.declare rfl hnames hfree hsound, rfl⟩, ?_, ?_⟩
  · exact hgrows.mem_names _ ((hnames c'.name).2 (Or.inl rfl))
  · intro i
    have hlatest : (s₃.state.blocks.push c').toList.reverse =
        c' :: s₃.state.blocks.toList.reverse := by simp
    simp only [hlatest, mapped, if_true, hmembers]
    exact hmapped i

end RegisterMap.Uvm
