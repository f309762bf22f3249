import RegisterMap.Proofs.AddressSpace
import RegisterMap.Proofs.Composed
import RegisterMap.Proofs.Visited

/-!
Exports of maps that fit the address space. A walk of such a map finds addresses
for all elements, so an export can only overflow in a step of its emitter; it is
enough to look at the emitter's steps one by one.
-/

namespace RegisterMap

namespace ExportM

variable {σ α β : Type}

/-- A step that does not stop because an address or a size leaves its word. -/
def NeverOverflows (step : ExportM σ α) : Prop := ∀ s, ¬ Stops step s .overflow

/-- A step made of elementary ones does not overflow where it has the words it asks for. -/
theorem Composed.neverOverflows {words : Prop} {step : ExportM σ α} (h : Composed words step)
    (hwords : words) : NeverOverflows step := by
  induction h with
  | pure => exact fun _ => not_stops_pure
  | bind _ _ hstep hnext =>
    intro s hstops
    rcases stops_bind.1 hstops with hstops | ⟨a, t, _, hstops⟩
    · exact hstep s hstops
    · exact hnext a t hstops
  | fail =>
    intro s hstops
    cases stops_stop.1 hstops
  | overflow hnone => exact absurd hwords hnone
  | busWidth => exact fun _ => not_stops_busWidth
  | takeId => exact fun _ => not_stops_takeId
  | built => exact fun _ => not_stops_built
  | debug | info | warn | resetBusWidth | observeBusWidth | build => exact fun _ => not_stops_modify

end ExportM

open ExportM

/-- An element of a valid map that fits the address space from the element downwards. -/
structure Element.Fits (e : Element) : Prop where
  valid : e.node.IsValid
  totalBytes_lt : ∀ m ∈ e.node.subtree, m.totalBytes < Word.limit
  reach_lt : e.address + e.node.reach < Word.limit

namespace Element.Fits

variable {e parent : Element} {options : WalkOptions}

theorem top {n : Node} (hvalid : n.IsValid) (h : n.FitsAddressSpace) : (Element.top n).Fits :=
  ⟨hvalid, h.1, h.2⟩

theorem child (h : parent.Fits) (he : e ∈ parent.children options) : e.Fits where
  valid := h.valid.child (node_mem_of_mem_children he)
  totalBytes_lt := fun m hm =>
    h.totalBytes_lt m (Node.mem_subtree_of_child (node_mem_of_mem_children he) hm)
  reach_lt := Nat.lt_of_le_of_lt (address_add_reach_le he) h.reach_lt

theorem address_lt (h : e.Fits) : e.address < Word.limit :=
  Nat.lt_of_le_of_lt (Nat.le_add_right _ _) h.reach_lt

theorem isSome_size? (h : e.Fits) : e.node.size?.isSome = true := by
  have hbytes : e.node.bytes < Word.limit :=
    Nat.lt_of_le_of_lt (Nat.le_add_left _ _) (h.totalBytes_lt e.node e.node.mem_subtree_self)
  rw [(Node.agrees_size? h.valid e.node.bytes hbytes).2 rfl]
  rfl

theorem isSome_rangeSize? (h : e.Fits) : e.node.rangeSize?.isSome = true := by
  unfold Node.rangeSize?
  split
  · rfl
  · exact h.isSome_size?

/-- The elements of a child all have addresses, from the parent's and so from zero. -/
theorem offset_add_lead_lt (h : parent.Fits) (he : e ∈ parent.children options) :
    e.node.offset + e.node.lead < Word.limit := by
  have hreach := Node.le_reachAll_of_mem (node_mem_of_mem_children he)
  rw [← Node.reach_eq] at hreach
  have hparent := h.reach_lt
  omega

theorem isListable (h : parent.Fits) (he : e ∈ parent.children options)
    (hcount : e.node.elementCount < Word.listLimit) : e.node.isListable 0 = true := by
  have hlead := h.offset_add_lead_lt he
  unfold Node.lead Node.elementStride Node.elementCount at hlead
  unfold Node.elementCount at hcount
  unfold Node.isListable
  cases harray : e.node.array with
  | none =>
    rw [harray] at hlead
    simp only [Option.map_none, Option.getD_none, Nat.zero_mul, Nat.add_zero] at hlead
    simpa [Word.add?, Word.isSome_ofNat?_iff] using hlead
  | some a =>
    simp only [harray, Option.map_some, Option.getD_some] at hlead hcount
    simp [hcount, ArrayShape.fits, elementAddress?, elementAddress, Word.isSome_ofNat?_iff,
      Nat.mul_comm _ a.stride, hlead]

theorem isSome_width? (h : e.Fits) (hkind : e.node.kind = .reg) {f : Field}
    (hf : f ∈ e.node.fields) : f.width?.isSome = true := by
  have hbounds := h.valid.field_bounds hkind hf
  have hregister := h.valid.regWidth_bounds hkind
  have hnarrow : f.lsb ≤ f.msb ∧ f.msb - f.lsb + 1 < Word.narrowLimit := by
    unfold Word.narrowLimit
    omega
  rw [Field.width?, if_pos hnarrow]
  rfl

end Element.Fits

namespace Emitter

variable {σ : Type} {em : Emitter σ} {P : Node → Prop}

/-- An emitter whose steps are composed of elementary ones. It has the words that it asks
for at an element that fits, if the node has a property that it may ask for besides. -/
structure KeepsWords (em : Emitter σ) (P : Node → Prop) : Prop where
  start : ∀ {words} context, Composed words (em.start context)
  block : ∀ {words : Prop} e inside, (words → e.Fits) → Composed words inside →
    Composed words (em.block e inside)
  registerFile : ∀ {words : Prop} parent e inside, (words → parent.Fits) →
    e ∈ parent.children em.options → (words → P e.node) → Composed words inside →
    Composed words (em.registerFile e parent inside)
  register : ∀ {words : Prop} parent e inside, (words → parent.Fits) →
    e ∈ parent.children em.options → (words → P e.node) → Composed words inside →
    Composed words (em.register e parent inside)
  memory : ∀ {words : Prop} parent e, (words → parent.Fits) → e ∈ parent.children em.options →
    (words → P e.node) → Composed words (em.memory e parent)
  field : ∀ {words : Prop} e f, (words → e.Fits) → e.node.kind = .reg → f ∈ e.node.fields →
    ∀ access, Composed words (em.field f access e)
  finish : ∀ {words} context, Composed words (em.finish context)

namespace KeepsWords

variable {words : Prop}

theorem needing {e : Element} (h : words → e.Fits) {step : ExportM σ Unit}
    (hstep : Composed words step) : Composed words (em.needing e e.node.children step) := by
  unfold Emitter.needing
  split
  · exact hstep
  case isFalse hnot =>
    refine .overflow fun hwords => hnot ((all_reach_iff em.options e).2 fun c hc => ?_)
    exact ((h hwords).child hc).address_lt

theorem fields (hem : em.KeepsWords P) {e : Element} (h : words → e.Fits)
    (hkind : e.node.kind = .reg) : Composed words (em.fields e) := by
  apply Composed.forM
  intro f hf
  exact hem.field e f h hkind (List.mem_filter.1 hf).1 _

/-- What is met below an element is composed as the steps of the emitter are. -/
theorem meet (hem : em.KeepsWords P) {parent e : Element} (hparent : words → parent.Fits)
    (he : e ∈ parent.children em.options)
    (hP : words → ∀ m ∈ e.node.visited em.options.skipAbsent, P m) :
    Composed words (em.meet parent e) := by
  induction e using Element.induction em.options generalizing parent with
  | step e ih =>
    have hfits (hwords : words) : e.Fits := (hparent hwords).child he
    have hbelow : Composed words (em.below e) := by
      rw [below_eq]
      exact needing hfits (.forM fun c hc => ih c hc hfits hc fun hwords m hm =>
        hP hwords m (Node.mem_visited_of_below (Element.mem_visitedBelow_of_child hc hm)))
    have hnode (hwords : words) : P e.node := hP hwords e.node (Node.mem_visited_self _ _)
    cases hkind : e.node.kind with
    | addrmap =>
      rw [meet_of_container em (Or.inl hkind)]
      exact hem.registerFile parent e _ hparent he hnode hbelow
    | regfile =>
      rw [meet_of_container em (Or.inr hkind)]
      exact hem.registerFile parent e _ hparent he hnode hbelow
    | reg =>
      rw [meet_of_register em hkind]
      exact hem.register parent e _ hparent he hnode (hem.fields hfits hkind)
    | mem =>
      rw [meet_of_memory em hkind]
      exact hem.memory parent e hparent he hnode

theorem visitBlock (hem : em.KeepsWords P) {e : Element} (h : words → e.Fits)
    (hP : words → ∀ m ∈ e.node.visitedBelow em.options.skipAbsent, P m) :
    Composed words (em.visitBlock e) := by
  rw [visitBlock_eq]
  refine hem.block e _ h ?_
  rw [below_eq]
  exact needing h (.forM fun c hc => hem.meet h hc fun hwords m hm =>
    hP hwords m (Element.mem_visitedBelow_of_child hc hm))

theorem visitTop (hem : em.KeepsWords P) {e : Element} (h : words → e.Fits)
    (hP : words → ∀ m ∈ e.node.visitedBelow em.options.skipAbsent, P m) (explosion : Explosion) :
    Composed words (em.visitTop e explosion) := by
  cases explosion with
  | wrap => exact hem.visitBlock h hP
  | explode =>
    refine needing h (.forM fun c hc => hem.visitBlock (fun hwords => (h hwords).child hc) ?_)
    exact fun hwords m hm =>
      hP hwords m (Element.mem_visitedBelow_of_child hc (Node.mem_visited_of_below hm))

theorem steps (hem : em.KeepsWords P) {top : Node} (h : words → (Element.top top).Fits)
    (hP : words → ∀ m ∈ top.visitedBelow em.options.skipAbsent, P m) (destination : Path) :
    Composed words (em.steps top destination) :=
  .bind (hem.start _) fun _ => .bind (hem.visitTop h hP _) fun _ => hem.finish _

/-- The export of a map that fits does not overflow, if what the emitter asks for besides
holds of all that it visits below the top. -/
theorem produce_ne_overflow_of_visited (hem : em.KeepsWords P) {n : Node}
    (h : n.FitsAddressSpace) (hP : ∀ m ∈ n.visitedBelow em.options.skipAbsent, P m)
    (destination : Path) : (em.produce n destination).1 ≠ .error .overflow := by
  change ¬ Stops (em.artifact n destination) { state := em.initial } .overflow
  intro hstops
  rcases stops_bind.1 hstops with hstops | ⟨_, s, hcheck, hstops⟩
  · exact (Composed.checkTop n).neverOverflows trivial _ hstops
  · have hvalid := Node.isValid_of_validate (yields_checkTop.1 hcheck).1.2
    have hsteps : Composed True (em.steps n destination) :=
      hem.steps (fun _ => .top hvalid h) (fun _ => hP) destination
    exact (Composed.bind (.debug _) fun _ => hsteps).neverOverflows trivial s hstops

/-- The export of a map that fits does not overflow. -/
theorem produce_ne_overflow (hem : em.KeepsWords P) {n : Node} (h : n.FitsAddressSpace)
    (hP : ∀ m ∈ n.subtree, P m) (destination : Path) :
    (em.produce n destination).1 ≠ .error .overflow := by
  exact hem.produce_ne_overflow_of_visited h (fun m hm =>
    hP m (Node.mem_subtree_of_mem_visited (Node.mem_visited_of_below hm))) destination

end KeepsWords

end Emitter

end RegisterMap
