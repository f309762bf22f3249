import RegisterMap.Proofs.Routes
import RegisterMap.Walk.Trace

/-!
How the two ways to walk a map agree. An unrolled walk takes every route once, in order.
A walk that meets arrays as wholes meets the elements of the unrolled one whose indices
are all zeros, along with those of what they lie in. An emitter that records what it is
handed has met just that, so the running walk is the one that is described here.
-/

namespace RegisterMap

/-! The routes of a walk. -/

theorem Descent.Before.ne {a b : Descent} (h : a.Before b) : a ≠ b := by
  rintro rfl
  rcases h with h | ⟨_, h⟩
  · exact absurd h (Nat.lt_irrefl _)
  · exact absurd h (lt_irrefl _)

theorem Route.Before.ne {a b : Route} (h : a.Before b) : a ≠ b :=
  List.Lex.to_ne (List.Lex.imp (fun _ _ => Descent.Before.ne) _ _ h)

/-- Elements that lie at all routes of a map, one at each, in the order of the routes. -/
structure Element.Enumerates (skip : Bool) (top : Node) (elements : List Element)
    (routes : List Route) : Prop where
  mem_iff : ∀ route, route ∈ routes ↔ ∃ n distance, top.Leads skip route n distance
  ordered : routes.Pairwise Route.Before
  nodup : routes.Nodup
  liesAt : List.Forall₂ (Element.LiesAt skip (.top top)) routes elements

theorem Element.enumerates_allBelow {top : Node} (hvalid : top.IsValid) (options : WalkOptions) :
    Element.Enumerates options.skipAbsent top (Element.allBelow options.unrolled top)
      (top.routes options.skipAbsent) where
  mem_iff _ := Node.mem_routes_iff hvalid
  ordered := Node.pairwise_routes hvalid
  nodup := (Node.pairwise_routes hvalid).imp Route.Before.ne
  liesAt := Element.forall₂_preorder hvalid rfl

/-! The first elements of arrays. -/

namespace Element

variable {options : WalkOptions}

theorem isFirst_nth_unrolled {n : Node} (hvalid : n.IsValid) (parent : Element) {linear : Nat}
    (h : linear < n.elementCount) :
    (nth options.unrolled parent n linear).isFirst = true ↔ linear = 0 := by
  have hindex : (n.array.map (·.unravel linear)).getD [] = n.elementIndex linear := rfl
  rw [isFirst, index_nth_unrolled, hindex, Node.all_zero_elementIndex_iff hvalid h]

/-- The path of an element by the names of what it lies in, without subscripts. -/
def plainPath (e : Element) : List Element → String
  | [] => e.node.name
  | parent :: above => childPath (plainPath parent above) e.node.name

end Element

theorem Node.elementCount_pos {n : Node} (hvalid : n.IsValid) : 0 < n.elementCount := by
  unfold elementCount
  cases harray : n.array with
  | none => simp
  | some a => simpa using (hvalid.array_isSound harray).count_pos

namespace Occurrence

variable {options : WalkOptions} {o : Occurrence}

/-- The first element of its array, and so is all that it lies in. -/
def isFirst (o : Occurrence) : Bool := (o.element :: o.above).all Element.isFirst

/-- An element without what tells it from the others of its array. -/
def erased (o : Occurrence) : Element :=
  { o.element with index := none, path := o.element.plainPath o.above }

@[simp]
theorem node_erased (o : Occurrence) : o.erased.node = o.element.node := rfl

theorem isFirst_inside (o : Occurrence) (e : Element) :
    (o.inside e).isFirst = (e.isFirst && o.isFirst) := rfl

/-- What lies in an element that is not the first one is not the first one either. -/
theorem isFirst_of_mem_walk {q : Occurrence} (h : q ∈ o.walk options) (hq : q.isFirst = true) :
    o.isFirst = true := by
  induction o using Occurrence.induction options with
  | step o ih =>
    rcases mem_walk_cases h with rfl | ⟨c, hc, hmem⟩
    · exact hq
    · have hinside := ih c hc hmem
      rw [isFirst_inside, Bool.and_eq_true] at hinside
      exact hinside.2

theorem select_isFirst_of_not (options : WalkOptions) (h : o.isFirst = false) :
    o.select isFirst options = [] := by
  rw [select, List.filter_eq_nil_iff]
  intro q hq hfirst
  exact absurd (isFirst_of_mem_walk hq hfirst) (by simp [h])

theorem select_of_isFirst (options : WalkOptions) (h : o.isFirst = true) :
    o.select isFirst options = o :: (o.children options).flatMap (select isFirst options) := by
  rw [select, walk_eq, List.filter_cons_of_pos h, List.filter_flatMap]
  rfl

/-- Without its index, the first element of an array is the array as a whole. -/
theorem erased_first (options : WalkOptions) (n : Node) (o : Occurrence) :
    (o.inside (o.element.nth options.unrolled n 0)).erased = o.erased.whole n := by
  have haddress : (o.element.nth options.unrolled n 0).address = o.element.address + n.offset := by
    rw [Element.address_nth_unrolled, Nat.zero_mul, Nat.add_zero]
  have hparent : (o.element.nth options.unrolled n 0).parentAddress = o.element.address := by
    unfold Element.nth
    split <;> rfl
  simp [erased, inside, Element.whole, Element.plainPath, haddress, hparent]

/-- Of the elements of a child, only what is met from the first one on is kept. -/
theorem flatMap_select_ofChild {n : Node} (hvalid : n.IsValid) (o : Occurrence)
    (hmet : n.isSkipped options = false) :
    ((o.element.ofChild options.unrolled n).flatMap fun e =>
        (o.inside e).select isFirst options.unrolled) =
      (o.inside (o.element.nth options.unrolled n 0)).select isFirst options.unrolled := by
  obtain ⟨count, hcount⟩ : ∃ count, n.elementCount = count + 1 :=
    Nat.exists_eq_succ_of_ne_zero (Node.elementCount_pos hvalid).ne'
  rw [Element.ofChild, Element.metCount_unrolled hmet, hcount, List.range_succ_eq_map,
    List.map_cons, List.flatMap_cons, List.append_right_eq_self, List.flatMap_eq_nil_iff]
  intro e he
  obtain ⟨linear, hlinear, rfl⟩ := List.mem_map.1 he
  obtain ⟨number, hnumber, rfl⟩ := List.mem_map.1 hlinear
  have hlt : number + 1 < n.elementCount := by
    rw [hcount]
    exact Nat.succ_lt_succ (List.mem_range.1 hnumber)
  have hlater : (o.element.nth options.unrolled n (number + 1)).isFirst = false := by
    rw [Bool.eq_false_iff, ne_eq, Element.isFirst_nth_unrolled hvalid _ hlt]
    exact Nat.succ_ne_zero number
  exact select_isFirst_of_not _ (by rw [isFirst_inside, hlater, Bool.false_and])

/-- A walk that meets arrays as wholes meets the first elements of the unrolled one. -/
theorem preorder_erased {n : Node} (hvalid : n.IsValid) (hroll : options.unroll = false)
    (hnode : o.element.node = n) (h : o.isFirst = true) :
    Element.preorder options n o.erased = (o.select isFirst options.unrolled).map erased := by
  induction n using Node.induction generalizing o with
  | step n ih =>
    subst hnode
    rw [← node_erased, Element.preorder_eq, select_of_isFirst _ h, List.map_cons, children,
      Element.children, Element.children, List.flatMap_map, List.flatMap_assoc,
      List.flatMap_assoc, List.map_flatMap]
    congr 1
    apply List.flatMap_congr
    intro child hchild
    have hchildValid := hvalid.child hchild
    cases hmet : child.isSkipped options with
    | true =>
      have hskipped : child.isSkipped options.unrolled = true := hmet
      rw [Element.ofChild_of_skipped hmet, Element.ofChild_of_skipped hskipped]
      rfl
    | false =>
      have hfirst : (o.element.nth options.unrolled child 0).isFirst = true :=
        (Element.isFirst_nth_unrolled hchildValid _ (Node.elementCount_pos hchildValid)).2 rfl
      have hinside := ih child hchild hchildValid (Element.nth_node _ _ _ _)
        (by rw [isFirst_inside, hfirst, h]; rfl)
      rw [Element.ofChild_of_whole hroll hmet, List.flatMap_singleton,
        flatMap_select_ofChild hchildValid o hmet, ← hinside, erased_first]
      rfl

end Occurrence

/-! The running walk. -/

namespace Trace

/-- The elements among some events, as they were met. -/
def met (events : Array Event) : List Element :=
  events.toList.filterMap fun
    | .node _ _ e _ _ => some e
    | _ => none

/-- A step that goes through, and records some elements. -/
def Records (step : ExportM (Array Event) Unit) (elements : List Element) : Prop :=
  ∀ s, ∃ t, step.Yields s () t ∧ met t.state = met s.state ++ elements

theorem records_pure : Records (pure ()) [] := fun s =>
  ⟨s, ExportM.yields_pure.2 ⟨rfl, rfl⟩, (List.append_nil _).symm⟩

theorem Records.bind {step next : ExportM (Array Event) Unit} {elements others : List Element}
    (h : Records step elements) (hnext : Records next others) :
    Records (step >>= fun _ => next) (elements ++ others) := by
  intro s
  obtain ⟨t, hstep, ht⟩ := h s
  obtain ⟨u, hrest, hu⟩ := hnext t
  exact ⟨u, ExportM.yields_bind.2 ⟨(), t, hstep, hrest⟩, by rw [hu, ht, List.append_assoc]⟩

theorem Records.forM {items : List α} {step : α → ExportM (Array Event) Unit}
    {elements : α → List Element} (h : ∀ a ∈ items, Records (step a) (elements a)) :
    Records (forM items step) (items.flatMap elements) := by
  induction items with
  | nil => exact records_pure
  | cons item rest ih =>
    rw [List.forM_cons, List.flatMap_cons]
    exact (h item List.mem_cons_self).bind (ih fun a ha => h a (List.mem_cons_of_mem item ha))

theorem records_observeBusWidth (width : Nat) : Records (.observeBusWidth width) [] := fun s =>
  ⟨s.observeBusWidth width, ExportM.yields_observeBusWidth.2 rfl, (List.append_nil _).symm⟩

theorem records_field (name : String) (access : AccessCode) (register : String) :
    Records (record (.field name access register)) [] := fun s =>
  ⟨_, ExportM.yields_build.2 rfl, by simp [met]⟩

theorem records_note {plan : Plan} (hfail : plan.failAt = none) (meeting : Meeting) (e : Element)
    (parent : Option Element) : Records (note plan meeting e parent) [e] := by
  intro s
  let t : Session (Array Event) :=
    { s with
      state := s.state.push (.node meeting s.nextId e (parent.map (·.path)) s.busWidth)
      nextId := s.nextId + 1 }
  have ht : met t.state = met s.state ++ [e] := by simp [t, met]
  by_cases hwarn : plan.warnAt = some e.path
  · exact ⟨t.warn ("warned at " ++ e.node.name),
      by simp [note, record, ExportM.yields_bind, hfail, hwarn, t], ht⟩
  · exact ⟨t, by simp [note, record, ExportM.yields_bind, hfail, hwarn, t], ht⟩

variable {plan : Plan}

theorem records_fields (e : Element) : Records ((emitter plan).fields e) [] := by
  have hfields : Records ((emitter plan).fields e)
      ((e.node.metFields plan.options).flatMap fun _ => []) :=
    .forM fun f _ => records_field f.name f.accessCode e.path
  rwa [List.flatMap_eq_nil_iff.2 fun _ _ => rfl] at hfields

/-- The recording emitter meets an element and all below it, in pre-order. -/
theorem records_meet (hfail : plan.failAt = none) {e : Element} (hvalid : e.node.IsValid)
    (hfits : ∀ q ∈ Element.preorder plan.options e.node e, q.address < Word.limit)
    (parent : Element) :
    Records ((emitter plan).meet parent e) (Element.preorder plan.options e.node e) := by
  induction e using Element.induction plan.options generalizing parent with
  | step e ih =>
    have hbelow : Records ((emitter plan).below e)
        ((e.children plan.options).flatMap fun c => Element.preorder plan.options c.node c) := by
      have haddresses : ∀ c ∈ e.children plan.options, c.address < Word.limit := fun c hc =>
        hfits c (Element.mem_preorder_of_child hc (Element.mem_preorder_self _ c))
      rw [Emitter.below_eq, Emitter.needing_of_fit _ _ haddresses]
      exact .forM fun c hc => ih c hc (Element.isValid_of_mem_children hvalid hc)
        (fun q hq => hfits q (Element.mem_preorder_of_child hc hq)) e
    have hleaf (h : e.node.children = []) : Element.preorder plan.options e.node e = [e] := by
      rw [Element.preorder_eq, Element.children, h]
      rfl
    cases hkind : e.node.kind with
    | addrmap =>
      rw [Emitter.meet_of_container _ (Or.inl hkind), Element.preorder_eq]
      exact (records_note hfail .registerFile e (some parent)).bind hbelow
    | regfile =>
      rw [Emitter.meet_of_container _ (Or.inr hkind), Element.preorder_eq]
      exact (records_note hfail .registerFile e (some parent)).bind hbelow
    | reg =>
      rw [Emitter.meet_of_register _ hkind, hleaf (hvalid.children_of_register hkind)]
      exact (records_observeBusWidth _).bind
        ((records_note hfail .register e (some parent)).bind (records_fields e))
    | mem =>
      rw [Emitter.meet_of_memory _ hkind, hleaf (hvalid.children_of_memory hkind)]
      exact records_note hfail .memory e (some parent)

end Trace

/-- For a valid map whose addresses are words: an unrolled walk takes every route once, in
order, each element at the address and with the index that its route says. A walk that
meets arrays as wholes meets the elements of the unrolled one that are first in all arrays
they lie in, without their indices. Either is what a running walk hands to its emitter. -/
theorem Node.walks_agree {top : Node} (hvalid : top.validate = .ok ()) (skip : Bool)
    (hfits : ∀ e ∈ Element.allBelow ⟨skip, true⟩ top, e.address < Word.limit) :
    (∃ routes, Element.Enumerates skip top (Element.allBelow ⟨skip, true⟩ top) routes) ∧
      (Occurrence.all ⟨skip, true⟩ top).map Occurrence.element =
        Element.allBelow ⟨skip, true⟩ top ∧
      Element.allBelow ⟨skip, false⟩ top =
        ((Occurrence.all ⟨skip, true⟩ top).filter Occurrence.isFirst).map Occurrence.erased ∧
      ∀ unroll parent, Trace.Records
        ((Trace.emitter { options := ⟨skip, unroll⟩ }).visit parent (.top top) top)
        (Element.allBelow ⟨skip, unroll⟩ top) := by
  have htop := Node.isValid_of_validate hvalid
  have herased : Element.allBelow ⟨skip, false⟩ top =
      ((Occurrence.all ⟨skip, true⟩ top).filter Occurrence.isFirst).map Occurrence.erased :=
    Occurrence.preorder_erased (o := .top top) htop rfl rfl rfl
  refine ⟨⟨_, Element.enumerates_allBelow htop ⟨skip, false⟩⟩,
    Occurrence.map_element_all ⟨skip, true⟩ top, herased, fun unroll parent => ?_⟩
  have hrecords := @Trace.records_meet { options := ⟨skip, unroll⟩ } rfl (.top top) htop
  refine hrecords ?_ parent
  cases unroll with
  | true => exact hfits
  | false =>
    -- An array as a whole lies where its first element does.
    have hwhole : ∀ e ∈ Element.allBelow ⟨skip, false⟩ top, e.address < Word.limit := by
      rw [herased, List.forall_mem_map]
      intro o ho
      apply hfits o.element
      rw [← Occurrence.map_element_all]
      exact List.mem_map_of_mem (List.mem_of_mem_filter ho)
    exact hwhole

/-- An array of register files with an array of registers in each, and one that is absent. -/
def nestedMap : Node :=
  let data : Node := { Node.reg "data" with array := some ⟨[2], 4⟩, offset := 4 }
  let bank : Node :=
    { Node.regfile "bank" with array := some ⟨[2, 2], 16⟩, offset := 64, children := [data] }
  { Node.addrmap "chip" with
    offset := 4096
    children := [bank, (Node.reg "old").withProperty "ispresent" (.bool false)] }

theorem walks_agree_on_nestedMap :
    (Element.allBelow ⟨true, true⟩ nestedMap).map (fun e => (e.path, e.address)) =
        [("chip", 4096),
          ("chip.bank[0][0]", 4160), ("chip.bank[0][0].data[0]", 4164),
          ("chip.bank[0][0].data[1]", 4168),
          ("chip.bank[0][1]", 4176), ("chip.bank[0][1].data[0]", 4180),
          ("chip.bank[0][1].data[1]", 4184),
          ("chip.bank[1][0]", 4192), ("chip.bank[1][0].data[0]", 4196),
          ("chip.bank[1][0].data[1]", 4200),
          ("chip.bank[1][1]", 4208), ("chip.bank[1][1].data[0]", 4212),
          ("chip.bank[1][1].data[1]", 4216)] ∧
      (Element.allBelow ⟨true, false⟩ nestedMap).map (fun e => (e.path, e.address)) =
        [("chip", 4096), ("chip.bank", 4160), ("chip.bank.data", 4164)] ∧
      (∃ routes, Element.Enumerates true nestedMap (Element.allBelow ⟨true, true⟩ nestedMap)
        routes) ∧
      Element.allBelow ⟨true, false⟩ nestedMap =
        ((Occurrence.all ⟨true, true⟩ nestedMap).filter Occurrence.isFirst).map
          Occurrence.erased := by
  have hvalid : nestedMap.validate = .ok () := by decide +kernel
  have hfits : ∀ e ∈ Element.allBelow ⟨true, true⟩ nestedMap, e.address < Word.limit := by
    decide +kernel
  have h := Node.walks_agree hvalid true hfits
  exact ⟨by decide +kernel, by decide +kernel, h.1, h.2.2.1⟩

end RegisterMap
