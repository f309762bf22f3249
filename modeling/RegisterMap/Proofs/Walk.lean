import Mathlib.Data.List.Basic
import Mathlib.Tactic.Common
import RegisterMap.Proofs.Step
import RegisterMap.Walk.Preorder

/-!
The walk as an iteration over elements. What an emitter meets below an element is
met child by child in the order of the list of its children, and each child by
its kind. A proof about a walk is an induction on the node of an element: what
holds of all children of an element carries over to the element.
-/

namespace RegisterMap

theorem forM_flatMap {m : Type → Type} [Monad m] [LawfulMonad m] {items : List α}
    {f : α → List β} {step : β → m Unit} :
    forM (items.flatMap f) step = forM items fun a => forM (f a) step := by
  induction items with
  | nil => rfl
  | cons item rest ih => rw [List.flatMap_cons, List.forM_append, List.forM_cons, ih]

theorem forM_congr {m : Type → Type} [Monad m] {items : List α} {f g : α → m Unit}
    (h : ∀ a ∈ items, f a = g a) : forM items f = forM items g := by
  induction items with
  | nil => rfl
  | cons item rest ih =>
    rw [List.forM_cons, List.forM_cons, h item List.mem_cons_self,
      ih fun a ha => h a (List.mem_cons_of_mem item ha)]

theorem Node.induction {P : Node → Prop} (step : ∀ n : Node, (∀ c ∈ n.children, P c) → P n)
    (n : Node) : P n := by
  apply step
  intro c hc
  have hsmaller : sizeOf c < sizeOf n := by
    have hmember := List.sizeOf_lt_of_mem hc
    have hchildren : sizeOf n.children < sizeOf n := by
      cases n
      simp only [Node.mk.sizeOf_spec]
      omega
    omega
  exact Node.induction step c
termination_by sizeOf n

/-- The same walk with every element of an array met by itself. -/
def WalkOptions.unrolled (options : WalkOptions) : WalkOptions := { options with unroll := true }

/-- Whether a walk passes over a node. -/
def Node.isSkipped (n : Node) (options : WalkOptions) : Bool :=
  options.skipAbsent && !n.isPresent

namespace Element

variable {options : WalkOptions}

theorem ofChild_of_skipped {child : Node} (h : child.isSkipped options = true)
    (parent : Element) : parent.ofChild options child = [] := by
  unfold Node.isSkipped at h
  simp [ofChild, Node.metCount, h]

/-- A walk that does not unroll meets a child as a whole. -/
theorem ofChild_of_whole {child : Node} (hroll : options.unroll = false)
    (h : child.isSkipped options = false) (parent : Element) :
    parent.ofChild options child = [parent.whole child] := by
  unfold Node.isSkipped at h
  simp [ofChild, Node.metCount, Node.metShape?, nth, hroll, h]

@[simp]
theorem nth_node (options : WalkOptions) (parent : Element) (child : Node) (number : Nat) :
    (nth options parent child number).node = child := by
  unfold nth
  split <;> rfl

/-- A child that is no array has no elements to be met by themselves. -/
theorem ofChild_unrolled {child : Node} (h : child.array = none) (parent : Element) :
    parent.ofChild options.unrolled child = parent.ofChild options child := by
  simp [ofChild, Node.metCount, Node.metShape?, nth, WalkOptions.unrolled, h]

theorem index_of_mem_children (hroll : options.unroll = false) {parent e : Element}
    (h : e ∈ parent.children options) : e.index = none := by
  obtain ⟨child, _, he⟩ := List.mem_flatMap.1 h
  obtain ⟨number, _, rfl⟩ := List.mem_map.1 he
  simp [nth, Node.metShape?, hroll, whole]

theorem node_of_mem_ofChild {parent e : Element} {child : Node}
    (h : e ∈ parent.ofChild options child) : e.node = child := by
  obtain ⟨number, _, rfl⟩ := List.mem_map.1 h
  exact nth_node options parent child number

theorem node_mem_of_mem_children {parent e : Element} (h : e ∈ parent.children options) :
    e.node ∈ parent.node.children := by
  obtain ⟨child, hchild, he⟩ := List.mem_flatMap.1 h
  rwa [node_of_mem_ofChild he]

/-- An element comes before what is met from the elements right below it. -/
theorem preorder_eq (options : WalkOptions) (e : Element) :
    preorder options e.node e =
      e :: (e.children options).flatMap fun c => preorder options c.node c := by
  have hall (nodes : List Node) : preorderAll options e nodes =
      (nodes.flatMap (e.ofChild options)).flatMap fun c => preorder options c.node c := by
    induction nodes with
    | nil => rfl
    | cons child rest ih =>
      rw [preorderAll, ih, List.flatMap_cons, List.flatMap_append]
      congr 1
      apply List.flatMap_congr
      intro c hc
      rw [node_of_mem_ofChild hc]
  have hnode (n : Node) : preorder options n e = e :: preorderAll options e n.children := by
    cases n
    rw [preorder]
  rw [hnode, hall, children]

/-- All elements below another, in pre-order. -/
def descendants (options : WalkOptions) (e : Element) : List Element :=
  (e.children options).flatMap fun c => preorder options c.node c

theorem preorder_eq_cons (options : WalkOptions) (e : Element) :
    preorder options e.node e = e :: e.descendants options :=
  preorder_eq options e

theorem mem_preorder_self (options : WalkOptions) (e : Element) :
    e ∈ preorder options e.node e := by
  rw [preorder_eq]
  exact List.mem_cons_self

theorem mem_preorder_of_child {e c q : Element} (hc : c ∈ e.children options)
    (hq : q ∈ preorder options c.node c) : q ∈ preorder options e.node e := by
  rw [preorder_eq]
  exact List.mem_cons_of_mem e (List.mem_flatMap.2 ⟨c, hc, hq⟩)

theorem allBelow_eq (options : WalkOptions) (top : Node) :
    allBelow options top = .top top ::
      ((Element.top top).children options).flatMap fun c => preorder options c.node c :=
  preorder_eq options (.top top)

/-- In a walk that does not unroll, what comes of the elements right below an element
comes of its child nodes. -/
theorem flatMap_children (hroll : options.unroll = false) (e : Element) {f : Node → List α}
    (hskipped : ∀ n, n.isSkipped options = true → f n = []) :
    ((e.children options).flatMap fun c => f c.node) = e.node.children.flatMap f := by
  rw [children, List.flatMap_assoc]
  apply List.flatMap_congr
  intro child _
  cases hmet : child.isSkipped options with
  | true => rw [ofChild_of_skipped hmet, hskipped child hmet, List.flatMap_nil]
  | false =>
    rw [ofChild_of_whole hroll hmet, List.flatMap_singleton]
    rfl

/-- A walk that does not unroll meets the children that it does not pass over. -/
theorem map_node_children (hroll : options.unroll = false) (e : Element) :
    (e.children options).map (·.node) = e.node.children.filter fun n => !n.isSkipped options := by
  rw [children]
  induction e.node.children with
  | nil => rfl
  | cons child rest ih =>
    rw [List.flatMap_cons, List.map_append, ih, List.filter_cons]
    cases hskipped : child.isSkipped options with
    | true => simp [ofChild_of_skipped hskipped]
    | false => simp [ofChild_of_whole hroll hskipped, whole]

theorem isSkipped_of_mem_children {parent e : Element} (h : e ∈ parent.children options) :
    e.node.isSkipped options = false := by
  obtain ⟨child, _, he⟩ := List.mem_flatMap.1 h
  rw [node_of_mem_ofChild he]
  cases hskipped : child.isSkipped options with
  | false => rfl
  | true => simp [ofChild_of_skipped hskipped] at he

/-- Induction from the elements right below an element to the element. -/
theorem induction {P : Element → Prop} (options : WalkOptions)
    (step : ∀ e : Element, (∀ c ∈ e.children options, P c) → P e) (e : Element) : P e := by
  have hall : ∀ n : Node, ∀ e : Element, e.node = n → P e := by
    intro n
    induction n using Node.induction with
    | step n ih =>
      intro e he
      apply step
      intro c hc
      exact ih c.node (he ▸ node_mem_of_mem_children hc) c rfl
  exact hall e.node e rfl

end Element

namespace Emitter

variable {σ : Type} (em : Emitter σ)

/-- What is met from an element downwards. -/
def meet (parent e : Element) : ExportM σ Unit := em.visit parent e e.node

/-- What is met from the children of an element downwards. -/
def below (e : Element) : ExportM σ Unit :=
  em.needing e e.node.children (em.visitAll e e.node.children)

theorem visitAll_eq_forM (parent : Element) (children : List Node) :
    em.visitAll parent children =
      forM (children.flatMap (parent.ofChild em.options)) (em.meet parent) := by
  induction children with
  | nil => simp [visitAll]
  | cons child rest ih =>
    rw [visitAll, ih, ExportM.forNumbers_eq_forM, List.flatMap_cons, List.forM_append,
      Element.ofChild, List.forM_map, List.range_eq_range']
    simp only [meet, Element.nth_node, List.forM_eq_forM]

theorem below_eq (e : Element) :
    em.below e = em.needing e e.node.children (forM (e.children em.options) (em.meet e)) := by
  rw [below, visitAll_eq_forM]
  rfl

theorem visitBlock_eq (e : Element) : em.visitBlock e = em.block e (em.below e) := rfl

theorem meet_of_container {parent e : Element}
    (h : e.node.kind = .addrmap ∨ e.node.kind = .regfile) :
    em.meet parent e = em.registerFile e parent (em.below e) := by
  unfold meet below
  cases hn : e.node with
  | mk name kind offset size array properties children fields source =>
    rw [hn] at h
    rcases h with h | h <;> subst h <;> rfl

theorem meet_of_register {parent e : Element} (h : e.node.kind = .reg) :
    em.meet parent e = em.register e parent (em.fields e) := by
  unfold meet
  cases hn : e.node with
  | mk name kind offset size array properties children fields source =>
    rw [hn] at h
    subst h
    rfl

theorem meet_of_memory {parent e : Element} (h : e.node.kind = .mem) :
    em.meet parent e = em.memory e parent := by
  unfold meet
  cases hn : e.node with
  | mk name kind offset size array properties children fields source =>
    rw [hn] at h
    subst h
    rfl

/-! What comes first: the addresses of all children. -/

theorem all_reach_iff (options : WalkOptions) (parent : Element) :
    parent.node.children.all (parent.reaches options) = true ↔
      ∀ c ∈ parent.children options, c.address < Word.limit := by
  simp only [List.all_eq_true, Element.reaches_iff, Element.children, List.mem_flatMap]
  constructor
  · rintro h c ⟨child, hchild, hc⟩
    exact h child hchild c hc
  · intro h child hchild c hc
    exact h c ⟨child, hchild, hc⟩

theorem needing_of_fit {e : Element} (step : ExportM σ Unit)
    (h : ∀ c ∈ e.children em.options, c.address < Word.limit) :
    em.needing e e.node.children step = step := by
  unfold needing
  rw [if_pos ((all_reach_iff em.options e).2 h)]

theorem yields_needing {e : Element} {step : ExportM σ Unit} {s t : Session σ} {u : Unit} :
    ExportM.Yields (em.needing e e.node.children step) s u t ↔
      (∀ c ∈ e.children em.options, c.address < Word.limit) ∧ ExportM.Yields step s u t := by
  unfold needing
  rw [← all_reach_iff em.options e]
  split
  case isTrue h => simp [h]
  case isFalse h => simp [h]

end Emitter

/-! The check of register arrays. -/

namespace Node

/-- Every element of a register array lies behind the one before it. -/
def IsSpaced (n : Node) : Prop := ∀ a, n.array = some a → n.regWidth / 8 ≤ a.stride

instance (n : Node) : Decidable n.IsSpaced :=
  match harray : n.array with
  | none => isTrue (by simp [IsSpaced, harray])
  | some a => decidable_of_iff (n.regWidth / 8 ≤ a.stride) (by simp [IsSpaced, harray])

theorem isSpaced_iff (n : Node) :
    n.IsSpaced ↔ ∀ stride size, n.strideCheck ≠ .overlapping stride size := by
  unfold IsSpaced strideCheck
  cases harray : n.array with
  | none => simp
  | some a =>
    simp only [Option.some.injEq, forall_eq']
    by_cases hequal : a.stride = n.regWidth / 8
    · simp [hequal]
    · by_cases hless : n.regWidth / 8 < a.stride
      · simp [hequal, hless]
        omega
      · simp [hequal, hless]
        omega

end Node

/-- The message about a gap between elements, told once for an array. -/
def Session.tellGap {σ : Type} (s : Session σ) (e : Element) : Session σ :=
  match e.node.strideCheck with
  | .sparse stride size =>
    if e.isFirst then
      s.emit .info (e.path ++ ": stride " ++ toString stride ++ " leaves gaps after each " ++
        toString size ++ "-byte register")
    else s
  | _ => s

@[simp]
theorem Session.state_tellGap {σ : Type} (s : Session σ) (e : Element) :
    (s.tellGap e).state = s.state := by
  unfold tellGap
  split
  · split <;> rfl
  · rfl

@[simp]
theorem Session.warnings_tellGap {σ : Type} (s : Session σ) (e : Element) :
    (s.tellGap e).warnings = s.warnings := by
  unfold tellGap
  split
  · split <;> rfl
  · rfl

@[simp]
theorem Session.nextId_tellGap {σ : Type} (s : Session σ) (e : Element) :
    (s.tellGap e).nextId = s.nextId := by
  unfold tellGap
  split
  · split <;> rfl
  · rfl

theorem yields_checkRegisterArray {σ : Type} {e : Element} {s t : Session σ} {check : StrideCheck} :
    ExportM.Yields (checkRegisterArray e) s check t ↔
      e.node.IsSpaced ∧ e.node.strideCheck = check ∧ s.tellGap e = t := by
  unfold checkRegisterArray Session.tellGap
  rw [Node.isSpaced_iff]
  cases hcheck : e.node.strideCheck with
  | contiguous => simp
  | overlapping stride size => simp [ExportM.yields_bind, ExportM.yields_map]
  | sparse stride size =>
    by_cases hfirst : e.isFirst
    · simp [ExportM.yields_map, hfirst, and_comm]
    · simp [hfirst]

end RegisterMap
