import RegisterMap.Proofs.Ensures
import RegisterMap.Proofs.Occurrence
import RegisterMap.Proofs.Produce
import RegisterMap.Proofs.Visited

/-!
Which exports are refused. An emitter is looked at by its own steps: between two
elements what it has built has one property, while the fields of a register are met
it has another, and its steps stop for certain reasons only. The walk then stops for
these reasons only, and it gets to its end past no register array that overlaps and
no node that the emitter itself does not let pass.
-/

namespace RegisterMap

open ExportM

/-- That the array of an element overlaps is among some reasons, if it does. -/
def Element.MayRefuse (may : Stop → Prop) (e : Element) : Prop :=
  ∀ stride size, e.node.strideCheck = .overlapping stride size →
    may (.failed (.overlappingArray e.path stride size))

theorem settles_checkRegisterArray {σ ι : Type} {inv : ι → σ → Prop} {may : Stop → Prop}
    {e : Element} (h : e.MayRefuse may) :
    Settles inv (checkRegisterArray e) e.node.IsSpaced may := by
  unfold checkRegisterArray
  cases hcheck : e.node.strideCheck with
  | contiguous =>
    have hspaced : e.node.IsSpaced := e.node.isSpaced_iff.2 (by simp [hcheck])
    exact (Settles.pure _).imp fun _ => hspaced
  | sparse stride size =>
    have hspaced : e.node.IsSpaced := e.node.isSpaced_iff.2 (by simp [hcheck])
    simp only
    split
    · exact (Settles.of_keeps fun _ => .info _).next fun _ _ =>
        (Settles.pure _).imp fun _ => hspaced
    · exact (Settles.pure _).imp fun _ => hspaced
  | overlapping stride size =>
    have hrefused : Settles inv (fail (.overlappingArray e.path stride size) : ExportM σ Unit)
        False may := fun _ => .fail (h stride size hcheck)
    exact (Settles.of_keeps fun _ => .debug _).next fun _ _ => hrefused.next fun h => h.elim

/-- A node that a walk has got past: no register whose elements overlap, and none that
the emitter does not take. -/
def Node.IsPassed (taken : Node → Prop) (n : Node) : Prop :=
  (n.kind = .reg → n.IsSpaced) ∧ taken n

namespace Emitter

variable {σ ι κ : Type}

theorem ensures_needing (em : Emitter σ) {e : Element} {step : ExportM σ Unit} {pre : σ → Prop}
    {post : Unit → σ → Prop} {may : Stop → Prop} (hoverflow : may .overflow)
    (hstep : Ensures pre step post may) :
    Ensures pre (em.needing e e.node.children step) post may := by
  unfold needing
  split
  · exact hstep
  · exact .stop hoverflow

/-- An emitter whose steps keep what is built in order and stop for some reasons only.
What the walk below an element establishes, the element's own step hands on; below a
block it takes certain nodes only, all single ones among them. -/
structure Guards (em : Emitter σ) (idle : ι → σ → Prop) (registering : κ → σ → Prop)
    (taken : Node → Prop) (may : Stop → Prop) : Prop where
  overflow : may .overflow
  single : ∀ n : Node, n.array = none → taken n
  start : ∀ context, ∃ i, Ensures (· = em.initial) (em.start context) (fun _ => idle i) may
  block : ∀ e inside fact, (e.node.kind = .mem → fact) → Settles idle inside fact may →
    Settles idle (em.block e inside) fact may
  registerFile : ∀ parent e inside fact, Settles idle inside fact may →
    Settles idle (em.registerFile e parent inside) (fact ∧ taken e.node) may
  register : ∀ parent e inside, e.MayRefuse may → Settles registering inside True may →
    Settles idle (em.register e parent inside) (e.node.IsSpaced ∧ taken e.node) may
  memory : ∀ parent e, Settles idle (em.memory e parent) (taken e.node) may
  field : ∀ f access e, Settles registering (em.field f access e) True may
  finish : ∀ context i, Ensures (idle i) (em.finish context) (fun _ _ => True) may

namespace Guards

variable {em : Emitter σ} {idle : ι → σ → Prop} {registering : κ → σ → Prop}
  {taken : Node → Prop} {may : Stop → Prop}

theorem needing (h : em.Guards idle registering taken may) {e : Element} {step : ExportM σ Unit}
    {fact : Prop} (hstep : Settles idle step fact may) :
    Settles idle (em.needing e e.node.children step) fact may :=
  fun i => em.ensures_needing h.overflow (hstep i)

theorem fields (h : em.Guards idle registering taken may) (e : Element) :
    Settles registering (em.fields e) True may :=
  (Settles.forM fun f _ => h.field f f.accessCode e).imp fun _ => trivial

theorem below (h : em.Guards idle registering taken may) {e : Element} (hvalid : e.node.IsValid)
    (hmeet : ∀ c ∈ e.children em.options, Settles idle (em.meet e c)
      (∀ m ∈ c.node.visited em.options.skipAbsent, m.IsPassed taken) may) :
    Settles idle (em.below e)
      (∀ m ∈ e.node.visitedBelow em.options.skipAbsent, m.IsPassed taken) may := by
  rw [below_eq]
  exact (h.needing (Settles.forM hmeet)).imp (Element.forall_visitedBelow hvalid)

theorem meet (h : em.Guards idle registering taken may) (e : Element) :
    e.node.IsValid →
    (∀ q ∈ Element.preorder em.options e.node e, q.node.kind = .reg → q.MayRefuse may) →
    ∀ parent, Settles idle (em.meet parent e)
      (∀ m ∈ e.node.visited em.options.skipAbsent, m.IsPassed taken) may := by
  induction e using Element.induction em.options with
  | step e ih =>
    intro hvalid hmay parent
    rw [Element.preorder_eq] at hmay
    rw [Node.visited_eq]
    have hbelow := h.below hvalid fun c hc => ih c hc (Element.isValid_of_mem_children hvalid hc)
      (fun q hq => hmay q (List.mem_cons_of_mem e (List.mem_flatMap.2 ⟨c, hc, hq⟩))) e
    cases hkind : e.node.kind with
    | addrmap =>
      rw [meet_of_container em (Or.inl hkind)]
      refine (h.registerFile parent e _ _ hbelow).imp fun hpassed => ?_
      exact List.forall_mem_cons.2 ⟨⟨by simp [hkind], hpassed.2⟩, hpassed.1⟩
    | regfile =>
      rw [meet_of_container em (Or.inr hkind)]
      refine (h.registerFile parent e _ _ hbelow).imp fun hpassed => ?_
      exact List.forall_mem_cons.2 ⟨⟨by simp [hkind], hpassed.2⟩, hpassed.1⟩
    | reg =>
      rw [meet_of_register em hkind, Node.visitedBelow_of_childless _
        (hvalid.children_of_register hkind)]
      refine (h.register parent e _ (hmay e List.mem_cons_self hkind) (h.fields e)).imp ?_
      rintro ⟨hspaced, htaken⟩
      simpa [Node.IsPassed, htaken] using fun _ => hspaced
    | mem =>
      rw [meet_of_memory em hkind, Node.visitedBelow_of_childless _
        (hvalid.children_of_memory hkind)]
      refine (h.memory parent e).imp fun htaken => ?_
      simp [Node.IsPassed, hkind, htaken]

theorem visitBlock (h : em.Guards idle registering taken may) {e : Element}
    (hvalid : e.node.IsValid)
    (hmay : ∀ q ∈ Element.preorder em.options e.node e, q.node.kind = .reg → q.MayRefuse may) :
    Settles idle (em.visitBlock e)
      (∀ m ∈ e.node.visitedBelow em.options.skipAbsent, m.IsPassed taken) may := by
  rw [Element.preorder_eq] at hmay
  rw [visitBlock_eq]
  apply h.block
  · intro hmem
    rw [Node.visitedBelow_of_childless _ (hvalid.children_of_memory hmem)]
    exact fun m hm => absurd hm List.not_mem_nil
  · exact h.below hvalid fun c hc => h.meet c (Element.isValid_of_mem_children hvalid hc)
      (fun q hq => hmay q (List.mem_cons_of_mem e (List.mem_flatMap.2 ⟨c, hc, hq⟩))) e

/-- The walk of a valid map keeps what is built in order, and if it gets to its end, it
has got past all nodes below the top. -/
theorem visitTop (h : em.Guards idle registering taken may) {top : Node} (hvalid : top.IsValid)
    (hmay : ∀ q ∈ Element.allBelow em.options top, q.node.kind = .reg → q.MayRefuse may) :
    Settles idle (em.visitTop (.top top) (em.explosion top))
      (∀ m ∈ top.visitedBelow em.options.skipAbsent, m.IsPassed taken) may := by
  cases hexplosion : em.explosion top with
  | wrap => exact h.visitBlock hvalid hmay
  | explode =>
    have hsplit : Explosion.decide top = .explode := by
      unfold Emitter.explosion at hexplosion
      split at hexplosion
      · exact hexplosion
      · cases hexplosion
    obtain ⟨_, hblockable⟩ := Explosion.decide_eq_explode hsplit
    rw [Element.allBelow_eq] at hmay
    have hblocks : Settles idle
        (forM ((Element.top top).children em.options) em.visitBlock) _ may :=
      Settles.forM fun c hc => h.visitBlock (Element.isValid_of_mem_children hvalid hc)
        fun q hq => hmay q (List.mem_cons_of_mem _ (List.mem_flatMap.2 ⟨c, hc, hq⟩))
    refine (h.needing hblocks).imp fun hpassed =>
      Element.forall_visitedBelow (e := .top top) hvalid fun c hc => ?_
    -- A block is single, and no register.
    obtain ⟨hkind, harray⟩ :=
      (Explosion.isBlockable_iff _).1 (hblockable c.node (Element.node_mem_of_mem_children hc))
    have hself : c.node.IsPassed taken :=
      ⟨fun hreg => by simp [hreg, Kind.canBeTop] at hkind, h.single _ harray⟩
    rw [Node.visited_eq]
    exact List.forall_mem_cons.2 ⟨hself, hpassed c hc⟩

/-- A whole export of a valid map ends well only past all nodes below the top, and stops
for the given reasons only. -/
theorem produce (h : em.Guards idle registering taken may) {top : Node}
    (hkind : top.kind.canBeTop = true) (hvalid : top.validate = .ok ())
    (hmay : ∀ q ∈ Element.allBelow em.options top, q.node.kind = .reg → q.MayRefuse may)
    (destination : Path) :
    match (em.produce top destination).1 with
    | .ok _ => ∀ m ∈ top.visitedBelow em.options.skipAbsent, m.IsPassed taken
    | .error reason => may reason := by
  obtain ⟨i, hstart⟩ := h.start (em.context top destination)
  have hwalk := h.visitTop (Node.isValid_of_validate hvalid) hmay i
  have hsteps : Ensures (· = em.initial) (em.steps top destination)
      (fun _ _ => ∀ m ∈ top.visitedBelow em.options.skipAbsent, m.IsPassed taken) may := by
    refine hstart.bind fun _ => hwalk.bind fun _ => .of_each fun a ha => ?_
    exact (h.finish (em.context top destination) i).weaken (fun b hb => hb ▸ ha.1)
      fun _ _ _ => ha.2
  rw [em.produce_eq hkind hvalid]
  rcases houtcome : outcome (em.steps top destination) (em.opening top destination) with
    ⟨reason | a, s⟩
  · exact hsteps.stops _ reason rfl (congrArg Prod.fst houtcome)
  · exact hsteps.yields _ a s rfl houtcome

end Guards

end Emitter

end RegisterMap
