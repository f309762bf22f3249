import RegisterMap.Proofs.Uvm.ClassName
import RegisterMap.Proofs.Uvm.Placement

/-!
How wide the address maps of a package are. The widest access is found in two ways: the
bus of an address block is widened by every register that is met in it, and a class that
is being built by its own registers and by the classes that are finished inside it. Both
come to the widest register below, however containers are nested and whatever else is met
between the registers.
-/

namespace RegisterMap

/-! The greatest of some numbers, where there are any. -/

theorem max_assoc_option (a b c : Option Nat) : max (max a b) c = max a (max b c) := by
  cases a with
  | none => rw [Option.max_none_left, Option.max_none_left]
  | some a =>
    cases b with
    | none => rw [Option.max_none_right, Option.max_none_left]
    | some b =>
      cases c with
      | none => rw [Option.max_none_right, Option.max_none_right]
      | some c => simp only [Option.max_some_some, Nat.max_assoc]

theorem max?_append (front back : List Nat) : (front ++ back).max? = max front.max? back.max? := by
  induction front with
  | nil => rw [List.nil_append, List.max?_nil, Option.max_none_left]
  | cons first rest ih =>
    have hcons (numbers : List Nat) : (first :: numbers).max? = max (some first) numbers.max? := by
      rw [List.max?_cons]
      cases numbers.max? <;> simp
    rw [List.cons_append, hcons, hcons, ih, max_assoc_option]

theorem max?_toList (width : Option Nat) : width.toList.max? = width := by
  cases width <;> simp

namespace Element

/-- The widths of the buses that the registers of a walk ask for, from an element down. -/
def busWidths (options : WalkOptions) (e : Element) : List Nat :=
  ((preorder options e.node e).filter fun q => q.node.kind = .reg).map fun q => q.node.busWidth

/-- The widest of them, if there is a register. -/
def widest (options : WalkOptions) (e : Element) : Option Nat := (e.busWidths options).max?

def isContainer (e : Element) : Bool :=
  match e.node.kind with
  | .addrmap | .regfile => true
  | .reg | .mem => false

mutual

/-- The containers of a walk from an element of a node down, each behind those in it. -/
def containers (options : WalkOptions) : Node → Element → List Element
  | { children, .. }, e =>
    containersAll options e children ++ if e.isContainer then [e] else []

def containersAll (options : WalkOptions) (parent : Element) : List Node → List Element
  | [] => []
  | child :: rest =>
    (parent.ofChild options child).flatMap (fun e => containers options child e) ++
      containersAll options parent rest

end

variable {options : WalkOptions}

theorem containers_eq (options : WalkOptions) (e : Element) :
    containers options e.node e =
      ((e.children options).flatMap fun c => containers options c.node c) ++
        if e.isContainer then [e] else [] := by
  have hall (nodes : List Node) : containersAll options e nodes =
      (nodes.flatMap (e.ofChild options)).flatMap fun c => containers options c.node c := by
    induction nodes with
    | nil => rfl
    | cons child rest ih =>
      rw [containersAll, ih, List.flatMap_cons, List.flatMap_append]
      congr 1
      apply List.flatMap_congr
      intro c hc
      rw [node_of_mem_ofChild hc]
  have hnode (n : Node) : containers options n e =
      containersAll options e n.children ++ if e.isContainer then [e] else [] := by
    cases n
    rw [containers]
  rw [hnode, hall, children]

/-- A register asks for its own width, and any element for what is asked for below it. -/
theorem busWidths_eq (options : WalkOptions) (e : Element) :
    e.busWidths options =
      (if e.node.kind = .reg then [e.node.busWidth] else []) ++
        (e.children options).flatMap (busWidths options) := by
  unfold busWidths
  rw [preorder_eq, List.filter_cons, List.filter_flatMap]
  split <;> simp_all [List.map_flatMap]

/-- The width that an address block asks of the model around it: that of the words of a
memory, and else that of its widest register. -/
def blockWidth (options : WalkOptions) (e : Element) : Option Nat :=
  if e.node.kind = .mem then some e.node.memWidth else e.widest options

theorem children_of_childless {e : Element} (h : e.node.children = []) :
    e.children options = [] := by
  rw [children, h, List.flatMap_nil]

end Element

/-- The address blocks of a map, in order. -/
def Emitter.blocks {σ : Type} (em : Emitter σ) (top : Node) : List Element :=
  match em.explosion top with
  | .wrap => [.top top]
  | .explode => (Element.top top).children em.options

/-- A walk goes through the address blocks one by one. -/
theorem Emitter.yields_visitTop {σ : Type} {em : Emitter σ} {top : Node} {s t : Session σ}
    (h : ExportM.Yields (em.visitTop (.top top) (em.explosion top)) s () t) :
    ExportM.Yields (forM (em.blocks top) em.visitBlock) s () t := by
  unfold Emitter.blocks
  cases hexplosion : em.explosion top with
  | wrap =>
    rw [hexplosion] at h
    rw [List.forM_cons]
    exact ExportM.yields_bind.2 ⟨(), t, h, ExportM.yields_pure.2 ⟨rfl, rfl⟩⟩
  | explode =>
    rw [hexplosion] at h
    exact (em.yields_needing.1 h).2

@[simp]
theorem Session.busWidth_tellGap {σ : Type} (s : Session σ) (e : Element) :
    (s.tellGap e).busWidth = s.busWidth := by
  unfold tellGap
  split
  · split <;> rfl
  · rfl

namespace Uvm

open ExportM

/-! Sessions before and after a step. -/

/-- A class for a container: it is named after the place of the container, and is as wide as
the widest register in it. -/
structure IsClassOf (options : WalkOptions) (e : Element) (c : BlockClass) : Prop where
  name_eq : ∃ n, 1 ≤ n ∧ c.name = numberedName (pathIdentifier e) "block" n
  width_eq : c.width = e.widest options

/-- The innermost block has come to be as wide as something that it has met, and the classes
of some containers have been finished. -/
structure Collects (options : WalkOptions) (s t : State) (width : Option Nat)
    (finished : List Element) : Prop where
  stack_eq : ∃ c c' above, s.stack = c :: above ∧ t.stack = c' :: above ∧ c'.name = c.name ∧
    c'.width = max c.width width
  blocks_eq : ∃ new, t.blocks.toList = s.blocks.toList ++ new ∧
    List.Forall₂ (IsClassOf options) finished new

/-- Besides, the bus of the session has been widened. -/
structure Widens (options : WalkOptions) (s t : Session State) (bus width : Option Nat)
    (finished : List Element) : Prop
    extends Collects options s.state t.state width finished where
  busWidth_eq : t.busWidth = max s.busWidth bus

variable {options : WalkOptions} {bus bus' width width' : Option Nat}
  {finished finished' : List Element}

theorem Collects.refl {s : State} (h : s.stack ≠ []) : Collects options s s none [] := by
  obtain ⟨c, above, hstack⟩ := List.exists_cons_of_ne_nil h
  exact ⟨⟨c, c, above, hstack, hstack, rfl, Option.max_none_right.symm⟩, [], by simp, .nil⟩

theorem Collects.stack_ne_nil {s t : State} (h : Collects options s t width finished) :
    t.stack ≠ [] := by
  obtain ⟨_, c', above, _, hstack, _⟩ := h.stack_eq
  rw [hstack]
  exact List.cons_ne_nil c' above

theorem Collects.trans {s t u : State} (h : Collects options s t width finished)
    (h' : Collects options t u width' finished') :
    Collects options s u (max width width') (finished ++ finished') := by
  obtain ⟨c, c', above, hs, ht, hname, hwidth⟩ := h.stack_eq
  obtain ⟨d, d', above', ht', hu, hname', hwidth'⟩ := h'.stack_eq
  obtain ⟨rfl, rfl⟩ := List.cons.inj (ht.symm.trans ht')
  obtain ⟨new, hblocks, hclasses⟩ := h.blocks_eq
  obtain ⟨new', hblocks', hclasses'⟩ := h'.blocks_eq
  refine ⟨⟨c, d', above, hs, hu, hname'.trans hname, ?_⟩, new ++ new', ?_, ?_⟩
  · rw [hwidth', hwidth, max_assoc_option]
  · rw [hblocks', hblocks, List.append_assoc]
  · exact List.rel_append hclasses hclasses'

theorem Widens.refl {s : Session State} (h : s.state.stack ≠ []) :
    Widens options s s none none [] :=
  ⟨Collects.refl h, Option.max_none_right.symm⟩

theorem Widens.trans {s t u : Session State} (h : Widens options s t bus width finished)
    (h' : Widens options t u bus' width' finished') :
    Widens options s u (max bus bus') (max width width') (finished ++ finished') :=
  ⟨h.toCollects.trans h'.toCollects, by rw [h'.busWidth_eq, h.busWidth_eq, max_assoc_option]⟩

/-! Steps that leave the blocks and the bus alone. -/

/-- The blocks of a session, open and finished, and the width of its bus. -/
def progress (s : Session State) : List BlockClass × Array BlockClass × Option Nat :=
  (s.state.stack, s.state.blocks, s.busWidth)

/-- A step after which the blocks and the bus are as they were. -/
def Resting {α : Type} (step : UvmM α) : Prop :=
  ∀ s a t, Yields step s a t → progress t = progress s

theorem resting_bind {α β : Type} {step : UvmM α} {next : α → UvmM β} (hstep : Resting step)
    (hnext : ∀ a, Resting (next a)) : Resting (step >>= next) := by
  intro s b u h
  obtain ⟨a, t, hfirst, hrest⟩ := yields_bind.1 h
  exact (hnext a t b u hrest).trans (hstep s a t hfirst)

theorem resting_pure {α : Type} (a : α) : Resting (pure a) :=
  fun _ _ _ h => by rw [(yields_pure.1 h).2]

theorem resting_built : Resting built := fun _ _ _ h => by rw [(yields_built.1 h).2]

theorem resting_build {f : State → State} (hstack : ∀ s, (f s).stack = s.stack)
    (hblocks : ∀ s, (f s).blocks = s.blocks) : Resting (build f) := by
  intro s _ t h
  obtain rfl := yields_build.1 h
  simp only [progress, hstack, hblocks]

theorem resting_forM {α : Type} {items : List α} {step : α → UvmM Unit}
    (h : ∀ a ∈ items, Resting (step a)) : Resting (forM items step) := by
  induction items with
  | nil => exact resting_pure ()
  | cons item rest ih =>
    rw [List.forM_cons]
    exact resting_bind (h item List.mem_cons_self) fun _ =>
      ih fun a ha => h a (List.mem_cons_of_mem item ha)

theorem resting_takeName (base suffix : String) : Resting (takeName base suffix) :=
  resting_bind resting_built fun _ =>
    resting_bind (resting_build (fun _ => rfl) fun _ => rfl) fun _ => resting_pure _

theorem resting_takeMemoryClass (e : Element) : Resting (takeMemoryClass e) :=
  resting_bind (resting_takeName _ _) fun _ =>
    resting_bind (resting_build (fun _ => rfl) fun _ => rfl) fun _ => resting_pure _

theorem resting_fieldMember (f : Field) (access : AccessCode) (register : Element) :
    Resting (fieldMember f access register) := by
  refine resting_bind resting_built fun s => ?_
  cases s.register with
  | none => exact fun _ _ _ h => absurd h not_yields_fail
  | some current =>
    refine resting_bind (fun _ _ _ h => ?_) fun _ => resting_build (fun _ => rfl) fun _ => rfl
    rw [(yields_checked.1 h).2]

theorem resting_checkRegisterArray (e : Element) : Resting (checkRegisterArray e) := by
  intro s check t h
  obtain ⟨_, _, rfl⟩ := yields_checkRegisterArray.1 h
  simp only [progress, Session.state_tellGap, Session.busWidth_tellGap]

/-! Steps that widen. -/

/-- A step that widens the bus and the innermost block. -/
def Widening (options : WalkOptions) (step : UvmM Unit) (bus width : Option Nat)
    (finished : List Element) : Prop :=
  ∀ s t, s.state.stack ≠ [] → Yields step s () t → Widens options s t bus width finished

theorem widening_pure : Widening options (pure ()) none none [] := by
  intro s t hstack h
  obtain ⟨_, rfl⟩ := yields_pure.1 h
  exact Widens.refl hstack

theorem Widening.andThen {first second : UvmM Unit}
    (hfirst : Widening options first bus width finished)
    (hsecond : Widening options second bus' width' finished') :
    Widening options (first >>= fun _ => second) (max bus bus') (max width width')
      (finished ++ finished') := by
  intro s u hstack h
  obtain ⟨_, t, hstep, hrest⟩ := yields_bind.1 h
  have hwidens := hfirst s t hstack hstep
  exact hwidens.trans (hsecond t u hwidens.stack_ne_nil hrest)

/-- Steps in a row come to the widest of what each of them does. -/
theorem widening_forM {α : Type} {items : List α} {step : α → UvmM Unit}
    {widths : α → List Nat} {finished : α → List Element}
    (h : ∀ a ∈ items, Widening options (step a) (widths a).max? (widths a).max? (finished a)) :
    Widening options (forM items step) (items.flatMap widths).max? (items.flatMap widths).max?
      (items.flatMap finished) := by
  induction items with
  | nil => exact widening_pure
  | cons item rest ih =>
    have hrest := ih fun a ha => h a (List.mem_cons_of_mem item ha)
    simpa only [List.forM_cons, List.flatMap_cons, max?_append] using
      (h item List.mem_cons_self).andThen hrest

theorem widening_of_resting {α : Type} {step : UvmM α} {next : α → UvmM Unit}
    (hstep : Resting step) (hnext : ∀ a, Widening options (next a) bus width finished) :
    Widening options (step >>= next) bus width finished := by
  intro s u hstack h
  obtain ⟨a, t, hfirst, hrest⟩ := yields_bind.1 h
  have hsame := hstep s a t hfirst
  simp only [progress, Prod.mk.injEq] at hsame
  obtain ⟨hopened, hblocks, hbus⟩ := hsame
  obtain ⟨⟨hgrown, hnew⟩, hwidened⟩ := hnext a t u (by rwa [hopened]) hrest
  exact ⟨⟨hopened ▸ hgrown, hblocks ▸ hnew⟩, hbus ▸ hwidened⟩

theorem width_observing (width : Option Nat) (c : BlockClass) :
    (observing width c).width = max c.width width := by
  cases width with
  | none => exact Option.max_none_right.symm
  | some width => cases hc : c.width <;> simp [observing, BlockClass.observeWidth, hc]

theorem busWidth_observeBusWidth (s : Session State) (width : Nat) :
    (s.observeBusWidth width).busWidth = max s.busWidth (some width) := by
  cases hs : s.busWidth <;> simp [Session.observeBusWidth, hs]

/-- A member that joins the innermost block widens it, but not the bus. -/
theorem widening_inParent (m : Member) (width : Option Nat) :
    Widening options (inParent fun parent => observing width (parent.addMember m)) none width
      [] := by
  intro s t _ h
  obtain ⟨c, above, hstack, rfl⟩ := yields_inParent h
  refine ⟨⟨⟨c, _, above, hstack, rfl, ?_, ?_⟩, [], by simp, .nil⟩, Option.max_none_right.symm⟩
  · exact name_observing width (c.addMember m)
  · exact width_observing width (c.addMember m)

theorem widening_addMember (e : Element) (kind : MemberKind) (className : String)
    (rights : Rights) (width : Option Nat) :
    Widening options (addMember e kind className rights width) none width [] := by
  unfold addMember
  split
  · exact widening_inParent _ width
  · intro s t _ h
    simp [yields_bind] at h

theorem widening_observeBusWidth (width : Nat) :
    Widening options (observeBusWidth width) (some width) none [] := by
  intro s t hstack h
  obtain rfl := yields_observeBusWidth.1 h
  exact ⟨Collects.refl hstack, busWidth_observeBusWidth s width⟩

/-- A block is opened, its contents are met, and it joins the classes that are finished: it
comes to be as wide as they have made it. -/
theorem widens_takeBlockClass {e : Element} {inside : UvmM Unit}
    (hinside : Widening options inside (e.widest options) (e.widest options) finished)
    {s t : Session State} {c : BlockClass} (h : Yields (takeBlockClass e inside) s c t) :
    IsClassOf options e c ∧ t.state.stack = s.state.stack ∧
      t.busWidth = max s.busWidth (e.widest options) ∧
      ∃ new, t.state.blocks = (s.state.blocks ++ new.toArray).push c ∧
        List.Forall₂ (IsClassOf options) finished new := by
  obtain ⟨name, s₁, htake, hrest⟩ := yields_bind.1 h
  obtain ⟨hname, rfl⟩ := yields_takeName.1 htake
  obtain ⟨_, s₂, hopen, hrest⟩ := yields_bind.1 hrest
  obtain rfl := yields_build.1 hopen
  obtain ⟨_, s₃, hmet, hrest⟩ := yields_bind.1 hrest
  obtain ⟨⟨⟨d, d', above, hstack, hstack', hsame, hwidth⟩, new, hblocks, hclasses⟩, hbus⟩ :=
    hinside _ s₃ (by simp) hmet
  obtain ⟨rfl, rfl⟩ := List.cons.inj hstack
  obtain ⟨built, s₄, hbuilt, hrest⟩ := yields_bind.1 hrest
  obtain ⟨rfl, rfl⟩ := yields_built.1 hbuilt
  simp only [hstack'] at hrest
  obtain ⟨_, s₅, hclose, hpure⟩ := yields_bind.1 hrest
  obtain rfl := yields_build.1 hclose
  obtain ⟨rfl, rfl⟩ := yields_pure.1 hpure
  refine ⟨⟨?_, ?_⟩, rfl, hbus, new, ?_, hclasses⟩
  · obtain ⟨n, hn, _, hfree, _⟩ :=
      freeName_eq_first s.state.names (pathIdentifier e) "block"
    exact ⟨n, hn, by rw [hsame, ← hname, hfree]⟩
  · rw [hwidth, Option.max_none_left]
  · have hall : s₃.state.blocks = s.state.blocks ++ new.toArray :=
      Array.toList_inj.1 (by simpa using hblocks)
    exact congrArg (·.push d') hall

/-! The steps of the walk. -/

section

variable (options : UvmOptions)

theorem widening_register (e : Element) :
    Widening (walkOptions options) (registerMember e ((emitter options).fields e))
      (some e.node.busWidth) (some e.node.busWidth) [] := by
  have hfields : Resting ((emitter options).fields e) :=
    resting_forM fun f _ => resting_fieldMember f f.accessCode e
  have hjoins (name : String) (rights : Rights) : Widening (walkOptions options)
      (observeBusWidth e.node.busWidth >>= fun _ =>
        addMember e .register name rights (some e.node.busWidth))
      (some e.node.busWidth) (some e.node.busWidth) [] := by
    simpa using (widening_observeBusWidth e.node.busWidth).andThen
      (widening_addMember e .register name rights (some e.node.busWidth))
  refine widening_of_resting (resting_checkRegisterArray e) fun _ =>
    widening_of_resting (resting_takeName _ _) fun name =>
    widening_of_resting (resting_build (fun _ => rfl) fun _ => rfl) fun _ =>
    widening_of_resting hfields fun _ => widening_of_resting resting_built fun s => ?_
  cases s.register with
  | none => exact fun _ _ _ h => absurd h not_yields_fail
  | some finished =>
    exact widening_of_resting (resting_build (fun _ => rfl) fun _ => rfl) fun _ =>
      hjoins name finished.rights

theorem widening_memory (e parent : Element) :
    Widening (walkOptions options) ((emitter options).memory e parent) none none [] :=
  widening_of_resting (resting_takeMemoryClass e) fun className =>
    widening_addMember e .memory className _ none

/-- A container hands on to the block around it what has widened its own class. -/
theorem widening_container (e parent : Element) {inside : UvmM Unit}
    (hinside : Widening (walkOptions options) inside (e.widest (walkOptions options))
      (e.widest (walkOptions options)) finished) :
    Widening (walkOptions options) ((emitter options).registerFile e parent inside)
      (e.widest (walkOptions options)) (e.widest (walkOptions options)) (finished ++ [e]) := by
  intro s u hstack h
  obtain ⟨c, t, htake, hadd⟩ := yields_bind.1 h
  obtain ⟨hclass, hopened, hbus, new, hblocks, hclasses⟩ := widens_takeBlockClass hinside htake
  have hmember : Widening (walkOptions options) (addMember e .block c.name .rw c.width) none
      c.width [] := widening_addMember e .block c.name .rw c.width
  obtain ⟨⟨hgrown, more, hmore, hnone⟩, hbus'⟩ := hmember t u (by rwa [hopened]) hadd
  obtain rfl := List.forall₂_nil_left_iff.1 hnone
  refine ⟨⟨?_, new ++ [c], ?_, ?_⟩, ?_⟩
  · rw [hopened, hclass.width_eq] at hgrown
    exact hgrown
  · rw [hmore, hblocks]
    simp
  · exact List.rel_append hclasses (.cons hclass .nil)
  · rw [hbus', hbus, Option.max_none_right]

theorem widening_below {e : Element}
    (hmeet : ∀ c ∈ e.children (walkOptions options), ∀ parent,
      Widening (walkOptions options) ((emitter options).meet parent c)
        (c.widest (walkOptions options)) (c.widest (walkOptions options))
        (Element.containers (walkOptions options) c.node c))
    (hkind : e.node.kind ≠ .reg) :
    Widening (walkOptions options) ((emitter options).below e) (e.widest (walkOptions options))
      (e.widest (walkOptions options))
      ((e.children (walkOptions options)).flatMap fun c =>
        Element.containers (walkOptions options) c.node c) := by
  intro s t hstack h
  rw [Emitter.below_eq, Emitter.yields_needing] at h
  have hall := widening_forM (fun c hc => hmeet c hc e) s t hstack h.2
  rwa [Element.widest, Element.busWidths_eq, if_neg hkind, List.nil_append]

/-- What is met from an element down widens the bus and the block around it as much as its
widest register does. -/
theorem widening_meet (e : Element) :
    e.node.IsValid → ∀ parent,
      Widening (walkOptions options) ((emitter options).meet parent e)
        (e.widest (walkOptions options)) (e.widest (walkOptions options))
        (Element.containers (walkOptions options) e.node e) := by
  induction e using Element.induction (walkOptions options) with
  | step e ih =>
    intro hvalid parent
    have hmeet : ∀ c ∈ e.children (walkOptions options), ∀ parent, Widening _ _ _ _ _ :=
      fun c hc => ih c hc (Element.isValid_of_mem_children hvalid hc)
    rw [Element.containers_eq]
    cases hkind : e.node.kind with
    | addrmap =>
      rw [Emitter.meet_of_container _ (Or.inl hkind), Element.isContainer, hkind]
      exact widening_container options e parent (widening_below options hmeet (by simp [hkind]))
    | regfile =>
      rw [Emitter.meet_of_container _ (Or.inr hkind), Element.isContainer, hkind]
      exact widening_container options e parent (widening_below options hmeet (by simp [hkind]))
    | reg =>
      have hnone : e.children (walkOptions options) = [] :=
        Element.children_of_childless (hvalid.children_of_register hkind)
      rw [Emitter.meet_of_register _ hkind, Element.isContainer, hkind, Element.widest,
        Element.busWidths_eq, hnone, if_pos hkind]
      exact widening_register options e
    | mem =>
      have hnone : e.children (walkOptions options) = [] :=
        Element.children_of_childless (hvalid.children_of_memory hkind)
      rw [Emitter.meet_of_memory _ hkind, Element.isContainer, hkind, Element.widest,
        Element.busWidths_eq, hnone, if_neg (by simp [hkind])]
      exact widening_memory options e parent

/-! The blocks of the model. -/

/-- An address block leaves the bus as wide as its class, and hands its width on to the
model: that of a memory is the width of its words. -/
theorem collects_visitBlock {e : Element} (hvalid : e.node.IsValid)
    (hkind : e.node.kind.canBeTop = true) {s t : Session State}
    (h : Yields ((emitter options).visitBlock e) s () t) :
    Collects (walkOptions options) s.state t.state (e.blockWidth (walkOptions options))
        (Element.containers (walkOptions options) e.node e) ∧
      (e.node.kind ≠ .mem → ∃ c, t.state.blocks.back? = some c ∧
        IsClassOf (walkOptions options) e c ∧ t.busWidth = c.width) := by
  rw [Emitter.visitBlock_eq] at h
  obtain ⟨_, s₁, hreset, hrest⟩ := yields_bind.1 h
  obtain rfl := yields_resetBusWidth.1 hreset
  obtain ⟨_, s₂, hinfo, hrest⟩ := yields_bind.1 hrest
  obtain rfl := yields_info.1 hinfo
  rw [Element.containers_eq]
  cases hn : e.node.kind with
  | addrmap =>
    rw [hn, if_neg (by simp)] at hrest
    obtain ⟨c, s₃, htake, hrest⟩ := yields_bind.1 hrest
    have hbelow := widening_below options (fun c hc => widening_meet options c
      (Element.isValid_of_mem_children hvalid hc)) (by simp [hn])
    obtain ⟨hclass, hopened, hbus, new, hblocks, hclasses⟩ := widens_takeBlockClass hbelow htake
    have hwidth : s₃.busWidth = c.width := by
      rw [hbus, hclass.width_eq]
      exact Option.max_none_left
    obtain ⟨width, s₄, htold, hadd⟩ := yields_bind.1 hrest
    obtain ⟨rfl, rfl⟩ := yields_busWidth.1 htold
    obtain ⟨d, above, hstack', rfl⟩ := yields_inParent hadd
    rw [Element.blockWidth, hn, if_neg (by simp), Element.isContainer, hn, if_pos rfl]
    refine ⟨⟨⟨d, _, above, hopened ▸ hstack', rfl, name_observing _ _, ?_⟩, new ++ [c], ?_, ?_⟩,
      fun _ => ⟨c, ?_, hclass, hwidth⟩⟩
    · rw [width_observing, hwidth, hclass.width_eq]
      rfl
    · simp [hblocks, Session.resetBusWidth, Session.emit]
    · exact List.rel_append hclasses (.cons hclass .nil)
    · simp [hblocks]
  | mem =>
    rw [hn, if_pos rfl] at hrest
    obtain ⟨className, s₃, htake, hadd⟩ := yields_bind.1 hrest
    have hsame := resting_takeMemoryClass e _ _ _ htake
    simp only [progress, Prod.mk.injEq] at hsame
    obtain ⟨hopened, hblocks, _⟩ := hsame
    obtain ⟨d, above, hstack', rfl⟩ := yields_inParent hadd
    rw [Element.blockWidth, hn, if_pos rfl, Element.isContainer, hn,
      Element.children_of_childless (hvalid.children_of_memory hn)]
    refine ⟨⟨⟨d, _, above, hopened ▸ hstack', rfl, name_observing _ _, ?_⟩, [], ?_, .nil⟩,
      fun hmem => absurd rfl hmem⟩
    · rw [width_observing]
      rfl
    · simp [hblocks, Session.resetBusWidth, Session.emit]
  | regfile => simp [hn, Kind.canBeTop] at hkind
  | reg => simp [hn, Kind.canBeTop] at hkind

theorem collects_visitBlocks {blocks : List Element}
    (h : ∀ e ∈ blocks, e.node.IsValid ∧ e.node.kind.canBeTop = true) {s t : Session State}
    (hstack : s.state.stack ≠ [])
    (hvisit : Yields (forM blocks (emitter options).visitBlock) s () t) :
    Collects (walkOptions options) s.state t.state
      (blocks.filterMap (Element.blockWidth (walkOptions options))).max?
      (blocks.flatMap fun e => Element.containers (walkOptions options) e.node e) := by
  induction blocks generalizing s with
  | nil =>
    obtain ⟨_, rfl⟩ := yields_pure.1 hvisit
    exact Collects.refl hstack
  | cons e rest ih =>
    obtain ⟨⟨hvalid, hkind⟩, hrest⟩ := List.forall_mem_cons.1 h
    rw [List.forM_cons] at hvisit
    obtain ⟨_, u, hfirst, hvisit⟩ := yields_bind.1 hvisit
    obtain ⟨hcollects, _⟩ := collects_visitBlock options hvalid hkind hfirst
    have hall := hcollects.trans (ih hrest hcollects.stack_ne_nil hvisit)
    rw [List.flatMap_cons, List.filterMap_cons]
    cases hwidth : e.blockWidth (walkOptions options) with
    | none =>
      rw [hwidth, Option.max_none_left] at hall
      exact hall
    | some width =>
      rw [hwidth, ← max?_toList (some width), ← max?_append] at hall
      exact hall

/-- The blocks of a valid map are valid, and each of them could be a top itself. -/
theorem valid_of_mem_blocks {top : Node} (hvalid : top.IsValid)
    (hkind : top.kind.canBeTop = true) :
    ∀ e ∈ (emitter options).blocks top, e.node.IsValid ∧ e.node.kind.canBeTop = true := by
  intro e he
  have hexplosion : (emitter options).explosion top = .decide top := rfl
  rw [Emitter.blocks, hexplosion] at he
  cases hsplit : Explosion.decide top with
  | wrap =>
    rw [hsplit, List.mem_singleton] at he
    subst he
    exact ⟨hvalid, hkind⟩
  | explode =>
    rw [hsplit] at he
    obtain ⟨_, hblockable⟩ := Explosion.decide_eq_explode hsplit
    have hchild := hblockable e.node (Element.node_mem_of_mem_children he)
    exact ⟨Element.isValid_of_mem_children hvalid he, ((Explosion.isBlockable_iff _).1 hchild).1⟩

end

/-- The line that creates the address map of a class. -/
def createMapLine (bytes : Nat) : String :=
  indented 3 ("this.default_map = create_map(\"default_map\", 0, " ++ toString bytes ++
    ", UVM_LITTLE_ENDIAN);")

theorem createMapLine_mem_lines (c : BlockClass) (isTop : Bool) :
    createMapLine c.mapBytes ∈ c.lines isTop := by
  simp [BlockClass.lines, classLines, createMapLine]

/-- The bytes that a width takes up, the last of them not always as a whole. -/
def bytesOf (width : Nat) : Nat := (width + 7) / 8

theorem mapBytes_eq (c : BlockClass) : c.mapBytes = bytesOf (c.width.getD 32) := rfl

/-- When an address block that is no memory has been met, the bus is as wide as the class of
the block. Each container of the walk has a class, in the order in which they are finished,
with an address map for the widest register below the container. The map of the model is for
the widest block: a memory is as wide as its words, and a block without registers does not
count. An address map without any width is for 32 bits. -/
theorem export_widths_agree (options : UvmOptions) {top : Node} {destination : Path}
    {a : Artifact} {s : Session State}
    (h : (emitter options).produce top destination = (.ok a, s)) :
    ∃ package : Package, a = .text package.render ∧
      (∀ before e after, (emitter options).blocks top = before ++ e :: after →
        e.node.kind ≠ .mem → ∃ u v c,
          Yields (do
            (emitter options).start ((emitter options).context top destination)
            forM before (emitter options).visitBlock)
            ((emitter options).opening top destination) () u ∧
          Yields ((emitter options).visitBlock e) u () v ∧
          v.state.blocks.back? = some c ∧ IsClassOf (walkOptions options) e c ∧
          v.busWidth = c.width) ∧
      List.Forall₂ (fun e c => IsClassOf (walkOptions options) e c ∧
          c.mapBytes = bytesOf ((e.widest (walkOptions options)).getD 32))
        (((emitter options).blocks top).flatMap fun e =>
          Element.containers (walkOptions options) e.node e) package.blocks ∧
      package.model.mapBytes = bytesOf ((((emitter options).blocks top).filterMap
        (Element.blockWidth (walkOptions options))).max?.getD 32) ∧
      ∀ (c : BlockClass) isTop, createMapLine c.mapBytes ∈ c.lines isTop := by
  obtain ⟨⟨hkind, hvalid⟩, hsteps⟩ := (emitter options).produce_eq_ok_iff.1 h
  have hblocks := valid_of_mem_blocks options (Node.isValid_of_validate hvalid) hkind
  obtain ⟨_, s₁, hstart, hrest⟩ := yields_bind.1 hsteps
  obtain ⟨_, s₂, hvisit, hfinish⟩ := yields_bind.1 hrest
  have hvisit := Emitter.yields_visitTop hvisit
  obtain ⟨name, _, htake, hopen⟩ := yields_bind.1 hstart
  obtain ⟨_, rfl⟩ := yields_takeName.1 htake
  obtain rfl := yields_build.1 hopen
  have hwalk := collects_visitBlocks options hblocks (by simp) hvisit
  obtain ⟨root, model, above, hroot, hstack, _, hwidth⟩ := hwalk.stack_eq
  obtain ⟨rfl, rfl⟩ := List.cons.inj hroot
  obtain ⟨classes, hdeclared, hclasses⟩ := hwalk.blocks_eq
  obtain ⟨built, _, hbuilt, hpure⟩ := yields_bind.1 hfinish
  obtain ⟨rfl, rfl⟩ := yields_built.1 hbuilt
  simp only [hstack, yields_pure] at hpure
  obtain ⟨rfl, rfl⟩ := hpure
  refine ⟨_, rfl, ?_, ?_, ?_, createMapLine_mem_lines⟩
  · intro before e after hsplit hmem
    rw [hsplit, List.forM_append] at hvisit
    rw [hsplit] at hblocks
    obtain ⟨_, u, hbefore, hvisit⟩ := yields_bind.1 hvisit
    rw [List.forM_cons] at hvisit
    obtain ⟨_, v, hblock, _⟩ := yields_bind.1 hvisit
    obtain ⟨hvalidBlock, hkindBlock⟩ := hblocks e (by simp)
    obtain ⟨_, hlast⟩ := collects_visitBlock options hvalidBlock hkindBlock hblock
    obtain ⟨c, hback, hclass, hbus⟩ := hlast hmem
    exact ⟨u, v, c, yields_bind.2 ⟨(), _, hstart, hbefore⟩, hblock, hback, hclass, hbus⟩
  · have hall : s₂.state.blocks.toList = [] ++ classes := hdeclared
    rw [hall, List.nil_append]
    refine hclasses.imp fun e c hclass => ⟨hclass, ?_⟩
    rw [mapBytes_eq, hclass.width_eq]
  · rw [mapBytes_eq, hwidth, Option.max_none_left]

/-- A core whose widest register lies in an array of banks behind a wide memory, a memory
beside the core, and a block without registers. -/
def wideMap : Node :=
  let bank : Node := ({ Node.regfile "bank" with array := some ⟨[2], 16⟩ }.addChild
    (Node.mem "fifo" 2 256)).addChild ((Node.reg "ctrl").withProperty "accesswidth" (.int 40))
  (((Node.addrmap "chip").addChild ((Node.addrmap "core").addChild bank)).addChild
    { Node.mem "ram" 4 100 with offset := 4096 }).addChild
      { Node.addrmap "idle" with offset := 8192 }

/-- The bank and the core are accessed by five bytes and the empty block by four. The model is
accessed by the thirteen of the memory beside the core, and not by those of the one in it. -/
theorem wideMap_widths_agree :
    ∃ package : Package, ∃ s,
      (emitter {}).produce wideMap ⟨"chip.sv"⟩ = (.ok (.text package.render), s) ∧
        package.blocks.map BlockClass.mapBytes = [5, 5, 4] ∧ package.model.mapBytes = 13 := by
  have hok : ((emitter {}).produce wideMap ⟨"chip.sv"⟩).1.isOk = true := by decide +kernel
  obtain ⟨a, s, hproduce, _⟩ := (emitter {}).exists_produce_eq_ok hok
  obtain ⟨package, rfl, _, hclasses, hmodel, _⟩ := export_widths_agree {} hproduce
  refine ⟨package, s, hproduce, ?_, ?_⟩
  · have hbytes := List.forall₂_map_left_iff.2 (List.forall₂_map_right_iff.2
      (hclasses.imp fun _ _ hclass => hclass.2.symm))
    rw [List.forall₂_eq_eq_eq] at hbytes
    rw [← hbytes]
    decide
  · rw [hmodel]
    decide

end Uvm

end RegisterMap
