import RegisterMap.Proofs.Ipxact.Elements
import RegisterMap.Proofs.Produce
import RegisterMap.Proofs.Valid
import RegisterMap.Proofs.Warned

/-!
What the steps of a component description write. A step adds elements to the
innermost open one and takes note of the widths of registers; whatever is open
around it stays as it was. It warns of what it leaves out.
-/

namespace RegisterMap.Ipxact

open ExportM

variable {standard : IpxactStandard}

def OpenElement.addAll (e : OpenElement) (children : List Xml) : OpenElement :=
  { e with contents := e.contents ++ children.toArray }

@[simp]
theorem OpenElement.addAll_nil (e : OpenElement) : e.addAll [] = e := by
  simp [addAll]

@[simp]
theorem OpenElement.addAll_addAll (e : OpenElement) (first second : List Xml) :
    (e.addAll first).addAll second = e.addAll (first ++ second) := by
  simp [addAll]

@[simp]
theorem OpenElement.addChild_eq (e : OpenElement) (child : Xml) :
    e.addChild child = e.addAll [child] := by
  simp [addAll, addChild]

/-- A step that adds elements to the innermost open one, sees widths and warns. -/
def Reports {α : Type} (step : IpxactM α) (elements : List Xml) (widths : List Nat)
    (texts : List String) : Prop :=
  ∀ s a t inner above, s.state = inner :: above → Yields step s a t →
    t.state = inner.addAll elements :: above ∧ t.busWidth = widths.foldl widened s.busWidth ∧
      s.Warns t texts

/-- A step that warns of nothing. -/
def Writes {α : Type} (step : IpxactM α) (elements : List Xml) (widths : List Nat) : Prop :=
  Reports step elements widths []

theorem writes_pure {α : Type} (a : α) : Writes (pure a) [] [] := by
  intro s b t inner above hstate h
  obtain ⟨_, rfl⟩ := yields_pure.1 h
  exact ⟨by rw [hstate, OpenElement.addAll_nil], rfl, .of_same rfl rfl⟩

theorem Reports.andThen {α β : Type} {first : IpxactM α} {next : α → IpxactM β}
    {x y : List Xml} {v w : List Nat} {texts texts' : List String}
    (hfirst : Reports first x v texts) (hnext : ∀ a, Reports (next a) y w texts') :
    Reports (first >>= next) (x ++ y) (v ++ w) (texts ++ texts') := by
  intro s a u inner above hstate h
  obtain ⟨a, t, hstep, hrest⟩ := yields_bind.1 h
  obtain ⟨hstate', hwidth, hwarns⟩ := hfirst s a t inner above hstate hstep
  obtain ⟨hstate'', hwidth', hwarns'⟩ := hnext a t _ u _ above hstate' hrest
  exact ⟨by rw [hstate'', OpenElement.addAll_addAll], by rw [hwidth', hwidth, List.foldl_append],
    hwarns.trans hwarns'⟩

theorem Writes.andThen {α β : Type} {first : IpxactM α} {next : α → IpxactM β}
    {x y : List Xml} {v w : List Nat} (hfirst : Writes first x v)
    (hnext : ∀ a, Writes (next a) y w) : Writes (first >>= next) (x ++ y) (v ++ w) :=
  Reports.andThen hfirst hnext

/-- A step that neither writes nor sees a width nor warns. -/
def Silent {α : Type} (step : IpxactM α) : Prop :=
  ∀ s a t, Yields step s a t → t.state = s.state ∧ t.busWidth = s.busWidth ∧ s.Warns t []

theorem reports_of_silent {α β : Type} {step : IpxactM α} {next : α → IpxactM β}
    {x : List Xml} {w : List Nat} {texts : List String} (hstep : Silent step)
    (hnext : ∀ s a t, Yields step s a t → Reports (next a) x w texts) :
    Reports (step >>= next) x w texts := by
  intro s b u inner above hstate h
  obtain ⟨a, t, hfirst, hrest⟩ := yields_bind.1 h
  obtain ⟨hsame, hwidth, hwarns⟩ := hstep s a t hfirst
  obtain ⟨hstate', hwidth', hwarns'⟩ :=
    hnext s a t hfirst t b u inner above (hsame.trans hstate) hrest
  exact ⟨hstate', by rw [hwidth', hwidth], hwarns.trans hwarns'⟩

theorem reports_checked {α β : Type} {o : Option α} {next : α → IpxactM β} {x : List Xml}
    {w : List Nat} {texts : List String} (h : ∀ a, o = some a → Reports (next a) x w texts) :
    Reports (checked o >>= next) x w texts := by
  apply reports_of_silent
  · intro s a t hstep
    obtain ⟨_, rfl⟩ := yields_checked.1 hstep
    exact ⟨rfl, rfl, .of_same rfl rfl⟩
  · intro s a t hstep
    exact h a (yields_checked.1 hstep).1

theorem reports_forM {α : Type} {items : List α} {step : α → IpxactM Unit} {x : α → List Xml}
    {w : α → List Nat} {texts : α → List String}
    (h : ∀ a ∈ items, Reports (step a) (x a) (w a) (texts a)) :
    Reports (forM items step) (items.flatMap x) (items.flatMap w) (items.flatMap texts) := by
  induction items with
  | nil => exact writes_pure ()
  | cons item rest ih =>
    have hfirst := h item List.mem_cons_self
    have hrest := ih fun a ha => h a (List.mem_cons_of_mem item ha)
    simpa only [List.forM_cons, List.flatMap_cons] using hfirst.andThen fun _ => hrest

/-! Single elements. -/

theorem writes_value (name text : String) :
    Writes (value standard name text) [leafElement standard name text] [] := by
  intro s _ t inner above hstate h
  obtain ⟨built, s', hbuilt, hrest⟩ := yields_bind.1 h
  obtain ⟨rfl, rfl⟩ := yields_built.1 hbuilt
  simp only [hstate, List.isEmpty_cons, Bool.false_eq_true, if_false, yields_build] at hrest
  subst hrest
  exact ⟨by simp [leafElement], rfl, .of_same rfl rfl⟩

theorem writes_optionalValue (name : String) (text : Option String) :
    Writes (optionalValue standard name text) (optionalElement standard name text) [] := by
  cases text with
  | none => exact writes_pure ()
  | some text => exact writes_value name text

theorem writes_nameGroup (name : String) (displayName desc : Option String) :
    Writes (nameGroup standard name displayName desc)
      (nameElements standard name displayName desc) [] :=
  (writes_value "name" name).andThen fun _ =>
    (writes_optionalValue "displayName" displayName).andThen fun _ =>
      writes_optionalValue "description" desc

theorem yields_closeElement {s t : Session (List OpenElement)} {u : Unit}
    {inner outer : OpenElement} {above : List OpenElement}
    (hstate : s.state = inner :: outer :: above) (h : Yields closeElement s u t) :
    t.state = outer.addAll [inner.close] :: above ∧ t.busWidth = s.busWidth ∧ s.Warns t [] := by
  obtain ⟨built, s', hbuilt, hrest⟩ := yields_bind.1 h
  obtain ⟨rfl, rfl⟩ := yields_built.1 hbuilt
  have hdeep : ¬ s.state.length < 2 := by simp [hstate]
  simp only [hdeep, if_false, yields_build] at hrest
  subst hrest
  exact ⟨by simp [hstate], rfl, .of_same rfl rfl⟩

/-- An element around what some steps write. -/
theorem reports_within {inside : IpxactM Unit} {x : List Xml} {w : List Nat}
    {texts : List String} (name : String) (h : Reports inside x w texts) :
    Reports (within standard name inside) [groupElement standard name x] w texts := by
  intro s _ u inner above hstate hstep
  obtain ⟨_, s', hopen, hrest⟩ := yields_bind.1 hstep
  obtain rfl := yields_build.1 hopen
  obtain ⟨_, t, hinside, hclose⟩ := yields_bind.1 hrest
  obtain ⟨hstate', hwidth, hwarns⟩ := h _ () t _ _ (congrArg _ hstate) hinside
  obtain ⟨hstate'', hwidth', hwarns'⟩ := yields_closeElement hstate' hclose
  refine ⟨?_, hwidth'.trans hwidth, ?_⟩
  · rw [hstate'']
    simp [OpenElement.close, OpenElement.addAll, groupElement]
  · have hwarned := hwarns.trans hwarns'
    rw [List.append_nil] at hwarned
    exact ⟨hwarned.warned_eq, hwarned.warnings_eq⟩

theorem writes_within {inside : IpxactM Unit} {x : List Xml} {w : List Nat} (name : String)
    (h : Writes inside x w) :
    Writes (within standard name inside) [groupElement standard name x] w :=
  reports_within name h

theorem writes_presence (isPresent : Bool) :
    Writes (presence standard isPresent) (presenceElements standard isPresent) [] := by
  cases isPresent with
  | true => exact writes_pure ()
  | false => exact writes_value "isPresent" "0"

/-- One element for each of some items. -/
theorem writes_forM_single {α : Type} {items : List α} {step : α → IpxactM Unit} {x : α → Xml}
    (h : ∀ a ∈ items, Writes (step a) [x a] []) :
    Writes (forM items step) (items.map x) [] := by
  have hall := reports_forM h
  have hnone (β : Type) : (items.flatMap fun _ => ([] : List β)) = [] := by simp
  rwa [← List.map_eq_flatMap, hnone, hnone] at hall

theorem writes_dimensions (n : Node) :
    Writes (dimensions standard n) (dimensionElements standard n) [] :=
  writes_forM_single fun d _ => writes_value "dim" (toString d)

/-! Elements of several parts. -/

/-- The first part of an element, which no register is in. -/
theorem Writes.next {α β : Type} {first : IpxactM α} {next : α → IpxactM β} {x : List Xml}
    {rest : List (List Xml)} {w : List Nat} {texts : List String} (hfirst : Writes first x [])
    (hnext : ∀ a, Reports (next a) rest.flatten w texts) :
    Reports (first >>= next) (x :: rest).flatten w texts :=
  Reports.andThen hfirst hnext

theorem Reports.last {α : Type} {step : IpxactM α} {x : List Xml} {w : List Nat}
    {texts : List String} (h : Reports step x w texts) : Reports step [x].flatten w texts := by
  rwa [List.flatten_singleton]

theorem writes_enumeratedValue (v : EnumeratedValue) :
    Writes (enumeratedValue standard v) [enumeratedValueElement standard v] [] :=
  writes_within "enumeratedValue" ((writes_nameGroup v.name v.displayName v.desc).andThen fun _ =>
    writes_value "value" (Text.hexLiteral v.value))

theorem writes_flag (isSet : Bool) (name text : String) :
    Writes (if isSet then value standard name text else pure ())
      (if isSet then [leafElement standard name text] else []) [] := by
  cases isSet with
  | true => exact writes_value name text
  | false => exact writes_pure ()

theorem writes_field (f : Field) : Writes (field standard f) [fieldElement standard f] [] := by
  apply writes_within
  apply (writes_nameGroup _ _ _).next
  intro _
  apply (writes_presence _).next
  intro _
  apply (writes_value _ _).next
  intro _
  -- What follows an optional part is shared by both of its cases.
  extract_lets +lift effects access width
  have heffects : ∀ u, Writes (effects u) (effectElements standard f) [] := by
    intro _
    apply (writes_optionalValue _ _).next
    intro _
    apply (writes_optionalValue _ _).next
    intro _
    exact (writes_flag _ _ _).last
  have haccess : ∀ u, Writes (access u) (accessElements standard f) [] := by
    intro _
    apply (writes_optionalValue _ _).next
    intro _
    cases f.encode? with
    | none => exact (heffects ()).last
    | some values =>
      have hvalues : Writes (values.forM (enumeratedValue standard))
          (values.map (enumeratedValueElement standard)) [] :=
        writes_forM_single fun v _ => writes_enumeratedValue v
      exact (writes_within "enumeratedValues" hvalues).next fun u => (heffects u).last
  have hwidth : ∀ u, Writes (width u) (widthElements standard f) [] := by
    intro _
    apply reports_checked
    intro bits hbits
    rw [widthElements, hbits, Option.getD_some]
    apply (writes_value _ _).next
    intro _
    cases f.isVolatile with
    | false => exact (haccess ()).last
    | true => exact (writes_value _ _).next fun u => (haccess u).last
  cases f.reset? with
  | none => exact (hwidth ()).last
  | some reset =>
    exact (writes_within "resets" (writes_within "reset" (writes_value _ _))).next fun u =>
      (hwidth u).last

/-! The parts of a map. -/

variable {options : IpxactOptions}

/-- The walk of a component description. -/
def walkOptions (options : IpxactOptions) : WalkOptions := { skipAbsent := options.skipAbsent }

theorem writes_nodeNames (n : Node) :
    Writes (nodeNames standard n) (nodeNameElements standard n) [] :=
  writes_nameGroup _ _ _

theorem writes_fields (options : IpxactOptions) (e : Element) :
    Writes ((emitter options).fields e)
      ((e.node.metFields (walkOptions options)).map (fieldElement options.standard)) [] :=
  writes_forM_single fun f _ => writes_field f

theorem silent_checkRegisterArray (e : Element) : Silent (checkRegisterArray e) := by
  intro s check t h
  obtain ⟨_, _, rfl⟩ := yields_checkRegisterArray.1 h
  refine ⟨Session.state_tellGap s e, ?_, s.warns_tellGap e⟩
  unfold Session.tellGap
  split
  · split <;> rfl
  · rfl

theorem reports_warn (text : String) : Reports (warn text) [] [] [text] := by
  intro s _ t inner above hstate h
  obtain rfl := yields_warn.1 h
  exact ⟨by rw [OpenElement.addAll_nil]; exact hstate, rfl, s.warns_warn text⟩

theorem writes_observe {x : List Xml} {w : List Nat} {next : IpxactM Unit} (width : Nat)
    (hnext : Writes next x w) :
    Writes (observeBusWidth width >>= fun _ => next) x (width :: w) := by
  intro s a u inner above hstate h
  obtain ⟨_, t, hobserve, hrest⟩ := yields_bind.1 h
  obtain rfl := yields_observeBusWidth.1 hobserve
  obtain ⟨hstate', hwidth, hwarns⟩ :=
    hnext (s.observeBusWidth width) a u inner above hstate hrest
  exact ⟨hstate', hwidth, hwarns.warned_eq, hwarns.warnings_eq⟩

/-! What is left out. -/

/-- An element below an address block that has no place in the format: a memory, or a
register array with gaps. -/
def isLeftOut (e : Element) : Bool :=
  e.node.kind = .mem ||
    e.node.kind = .reg && e.node.array.any fun a => e.node.regWidth / 8 < a.stride

theorem isLeftOut_of_container {e : Element} (h : e.node.kind = .addrmap ∨ e.node.kind = .regfile) :
    isLeftOut e = false := by
  rcases h with h | h <;> simp [isLeftOut, h]

theorem isLeftOut_of_memory {e : Element} (h : e.node.kind = .mem) : isLeftOut e = true := by
  simp [isLeftOut, h]

/-- Unless its elements overlap, a register has an element or is left out. -/
theorem isLeftOut_of_register {e : Element} (h : e.node.kind = .reg) (hspaced : e.node.IsSpaced) :
    isLeftOut e = !decide (e.node.strideCheck = .contiguous) := by
  unfold isLeftOut Node.strideCheck
  unfold Node.IsSpaced at hspaced
  cases harray : e.node.array with
  | none => simp [h]
  | some a =>
    have hstride := hspaced a harray
    by_cases hequal : a.stride = e.node.regWidth / 8
    · simp [h, hequal]
    · have hless : e.node.regWidth / 8 < a.stride := by omega
      simp [h, hequal, hless]

/-- What is warned of such an element. -/
def discardText (e : Element) : String :=
  match e.node.kind, e.node.strideCheck with
  | .reg, .sparse stride size =>
    "IP-XACT does not support register arrays whose stride (" ++ toString stride ++
      ") is larger than the register's size (" ++ toString size ++ "). Discarding '" ++
      e.path ++ "'"
  | _, _ =>
    "IP-XACT does not support 'mem' nodes that are nested in hierarchy. Discarding '" ++
      e.path ++ "'"

/-- The warnings of what is left out from an element downwards. -/
def discardTexts (options : WalkOptions) (e : Element) : List String :=
  ((Element.preorder options e.node e).filter isLeftOut).map discardText

theorem discardTexts_eq (options : WalkOptions) (e : Element) :
    discardTexts options e =
      (if isLeftOut e then [discardText e] else []) ++
        (e.children options).flatMap (discardTexts options) := by
  have hbelow : (((e.children options).flatMap fun c =>
      Element.preorder options c.node c).filter isLeftOut).map discardText =
        (e.children options).flatMap (discardTexts options) := by
    rw [List.filter_flatMap, List.map_flatMap]
    rfl
  rw [discardTexts, Element.preorder_eq, List.filter_cons, ← hbelow]
  cases isLeftOut e <;> simp

theorem discardTexts_of_container (options : WalkOptions) {e : Element}
    (h : e.node.kind = .addrmap ∨ e.node.kind = .regfile) :
    discardTexts options e = (e.children options).flatMap (discardTexts options) := by
  rw [discardTexts_eq, isLeftOut_of_container h]
  rfl

theorem discardTexts_of_childless (options : WalkOptions) {e : Element}
    (h : e.node.children = []) :
    discardTexts options e = if isLeftOut e then [discardText e] else [] := by
  rw [discardTexts_eq, Element.children, h]
  exact List.append_nil _

theorem reports_nestedMemory {e : Element} (h : e.node.kind = .mem) :
    Reports (nestedMemory e) [] [] (if isLeftOut e then [discardText e] else []) := by
  rw [isLeftOut_of_memory h, if_pos rfl, discardText, h]
  exact reports_warn _

/-- A register with gaps between its elements is left out. -/
theorem reports_register (e : Element) (hkind : e.node.kind = .reg) :
    Reports (register options.standard e ((emitter options).fields e))
      (if e.node.strideCheck = .contiguous
        then [registerElement options.standard (walkOptions options) e.node] else [])
      (if e.node.strideCheck = .contiguous then [e.node.busWidth] else [])
      (if isLeftOut e then [discardText e] else []) := by
  apply reports_of_silent (silent_checkRegisterArray e)
  intro s check t h
  obtain ⟨hspaced, hcheck, _⟩ := yields_checkRegisterArray.1 h
  rw [isLeftOut_of_register hkind hspaced, discardText, hkind, hcheck]
  cases check with
  | sparse stride size => exact reports_warn _
  | overlapping stride size => exact absurd hcheck ((e.node.isSpaced_iff).1 hspaced stride size)
  | contiguous =>
    apply writes_within
    apply (writes_nodeNames e.node).next
    intro _
    apply (writes_presence _).next
    intro _
    apply (writes_dimensions _).next
    intro _
    apply (writes_value _ _).next
    intro _
    apply (writes_value _ _).next
    intro _
    exact writes_observe _ (writes_fields options e).last

theorem reports_registerFile {e : Element} {inside : IpxactM Unit} {x : List Xml} {w : List Nat}
    {texts : List String} (h : Reports inside x w texts) :
    Reports (registerFile standard e inside) [registerFileElement standard e.node x] w texts := by
  apply reports_within
  apply (writes_nodeNames e.node).next
  intro _
  apply (writes_presence _).next
  intro _
  apply (writes_dimensions _).next
  intro _
  apply (writes_value _ _).next
  intro _
  apply reports_checked
  intro range hrange
  rw [hrange, Option.getD_some]
  apply (writes_value _ _).next
  intro _
  exact h.last

theorem reports_needing {em : Emitter (List OpenElement)} {e : Element} {step : IpxactM Unit}
    {x : List Xml} {w : List Nat} {texts : List String} (h : Reports step x w texts) :
    Reports (em.needing e e.node.children step) x w texts := by
  intro s _ t inner above hstate hstep
  exact h s () t inner above hstate ((em.yields_needing).1 hstep).2

theorem reports_below {e : Element}
    (hmeet : ∀ c ∈ e.children (walkOptions options), ∀ parent,
      Reports ((emitter options).meet parent c)
        (childElements options.standard (walkOptions options) c.node)
        (childWidths (walkOptions options) c.node) (discardTexts (walkOptions options) c)) :
    Reports ((emitter options).below e)
      (e.node.children.flatMap (childElements options.standard (walkOptions options)))
      (e.node.children.flatMap (childWidths (walkOptions options)))
      ((e.children (walkOptions options)).flatMap (discardTexts (walkOptions options))) := by
  have hall := reports_forM fun c hc => hmeet c hc e
  have helements := Element.flatMap_children (rfl : (walkOptions options).unroll = false) e
    (f := childElements options.standard (walkOptions options)) fun n hn => by
      rw [childElements_eq, if_pos hn]
  have hwidths := Element.flatMap_children (rfl : (walkOptions options).unroll = false) e
    (f := childWidths (walkOptions options)) fun n hn => by
      rw [childWidths_eq, if_pos hn]
  rw [helements, hwidths] at hall
  rw [Emitter.below_eq]
  exact reports_needing hall

/-- What is written from an element downwards depends on its node alone; a warning names
the path of what is left out. -/
theorem reports_meet (options : IpxactOptions) (e : Element) :
    e.node.IsValid → e.node.isSkipped (walkOptions options) = false → ∀ parent,
      Reports ((emitter options).meet parent e)
        (childElements options.standard (walkOptions options) e.node)
        (childWidths (walkOptions options) e.node) (discardTexts (walkOptions options) e) := by
  induction e using Element.induction (walkOptions options) with
  | step e ih =>
    intro hvalid hmet parent
    have hbelow := reports_below fun c hc =>
      ih c hc (Element.isValid_of_mem_children hvalid hc) (Element.isSkipped_of_mem_children hc)
    rw [childElements_eq, childWidths_eq, hmet]
    cases hkind : e.node.kind with
    | addrmap =>
      rw [Emitter.meet_of_container _ (Or.inl hkind), discardTexts_of_container _ (Or.inl hkind)]
      exact reports_registerFile hbelow
    | regfile =>
      rw [Emitter.meet_of_container _ (Or.inr hkind), discardTexts_of_container _ (Or.inr hkind)]
      exact reports_registerFile hbelow
    | reg =>
      rw [Emitter.meet_of_register _ hkind,
        discardTexts_of_childless _ (hvalid.children_of_register hkind)]
      exact reports_register e hkind
    | mem =>
      rw [Emitter.meet_of_memory _ hkind,
        discardTexts_of_childless _ (hvalid.children_of_memory hkind)]
      exact reports_nestedMemory hkind

/-! Address blocks. -/

/-- What is left of a run after a step that sees no width. -/
theorem Writes.peel {α β : Type} {first : IpxactM α} {next : α → IpxactM β} {x : List Xml}
    (h : Writes first x []) {s u : Session (List OpenElement)} {b : β} {inner : OpenElement}
    {above : List OpenElement} (hstate : s.state = inner :: above)
    (hrun : Yields (first >>= next) s b u) :
    ∃ a t, Yields (next a) t b u ∧ t.state = inner.addAll x :: above ∧
      t.busWidth = s.busWidth ∧ s.Warns t [] := by
  obtain ⟨a, t, hfirst, hrest⟩ := yields_bind.1 hrun
  obtain ⟨hstate', hwidth, hwarns⟩ := h s a t inner above hstate hfirst
  exact ⟨a, t, hrest, hstate', hwidth, hwarns⟩

theorem yields_lastSlot {s t : Session (List OpenElement)} {slot : Nat} {inner : OpenElement}
    {above : List OpenElement} (hstate : s.state = inner :: above) (h : Yields lastSlot s slot t) :
    slot = inner.contents.size - 1 ∧ t = s := by
  obtain ⟨built, s', hbuilt, hrest⟩ := yields_bind.1 h
  obtain ⟨rfl, rfl⟩ := yields_built.1 hbuilt
  simp only [hstate, yields_pure] at hrest
  exact ⟨hrest.1.symm, hrest.2.symm⟩

theorem fillChild_addAll (e : OpenElement) (name before text : String) (later : List Xml) :
    (e.addAll (leafElement standard name before :: later)).fillChild e.contents.size text =
      e.addAll (leafElement standard name text :: later) := by
  unfold OpenElement.fillChild OpenElement.addAll
  congr 1
  apply Array.toList_inj.1
  rw [Array.toList_modify, List.modify_eq_take_drop]
  simp [leafElement]

/-- A leaf whose text is told from the widths that are seen behind it. -/
theorem yields_slot {name : String} {middle : IpxactM Unit} {text : Option Nat → String}
    {x : List Xml} {w : List Nat} {texts : List String} (hmiddle : Reports middle x w texts)
    {s t : Session (List OpenElement)} {u : Unit} {inner : OpenElement}
    {above : List OpenElement} (hstate : s.state = inner :: above)
    (h : Yields (do
      value standard name ""
      let slot ← lastSlot
      middle
      fillSlot slot (text (← busWidth))) s u t) :
    t.state = inner.addAll (leafElement standard name (text (w.foldl widened s.busWidth)) :: x) ::
      above ∧ s.Warns t texts := by
  obtain ⟨_, s₁, hrun₁, hstate₁, hwidth₁, hwarns₁⟩ := (writes_value name "").peel hstate h
  obtain ⟨slot, s₂, hslot, hrun₂⟩ := yields_bind.1 hrun₁
  obtain ⟨rfl, rfl⟩ := yields_lastSlot hstate₁ hslot
  obtain ⟨_, s₃, hstep, hrun₃⟩ := yields_bind.1 hrun₂
  obtain ⟨hstate₃, hwidth₃, hwarns₃⟩ := hmiddle s₂ _ s₃ _ above hstate₁ hstep
  obtain ⟨width, s₄, hbus, hfill⟩ := yields_bind.1 hrun₃
  obtain ⟨rfl, rfl⟩ := yields_busWidth.1 hbus
  obtain rfl := yields_build.1 hfill
  have hslotIs : (inner.addAll [leafElement standard name ""]).contents.size - 1 =
      inner.contents.size := by simp [OpenElement.addAll]
  have hwarned := hwarns₁.trans hwarns₃
  refine ⟨?_, hwarned.warned_eq, hwarned.warnings_eq⟩
  rw [hstate₃, List.modifyHead_cons, OpenElement.addAll_addAll, hslotIs, hwidth₃, hwidth₁,
    List.singleton_append, fillChild_addAll]

/-- What an address block says about a memory. -/
def memoryValues (standard : IpxactStandard) (n : Node) : IpxactM Unit := do
  if n.kind = .mem then
    value standard "usage" "memory"
    optionalValue standard "access" n.softwareAccess.ipxact?

theorem writes_memoryValues (n : Node) :
    Writes (memoryValues standard n) (memoryElements standard n) [] := by
  unfold memoryValues memoryElements
  split
  · exact (writes_value _ _).andThen fun _ => writes_optionalValue _ _
  · exact writes_pure ()

/-- The width of an address block has a leaf that is filled last. -/
theorem addressBlock_eq (e : Element) (inside : IpxactM Unit) :
    addressBlock standard e inside = (do
      resetBusWidth
      within standard "addressBlock" do
        nodeNames standard e.node
        presence standard e.node.isPresent
        value standard "baseAddress" (Text.hexLiteral e.address)
        let size ← checked e.node.size?
        value standard "range" (Text.hexLiteral size)
        value standard "width" ""
        let slot ← lastSlot
        (do
          memoryValues standard e.node
          inside)
        fillSlot slot (toString (blockWidth e.node (← busWidth)))) := by
  unfold addressBlock memoryValues
  by_cases hkind : e.node.kind = .mem
  · simp only [hkind, if_true, bind_assoc]
  · simp only [hkind, if_false, pure_bind]

theorem yields_addressBlock {e : Element} {inside : IpxactM Unit} {x : List Xml} {w : List Nat}
    {texts : List String} (hinside : Reports inside x w texts)
    {s t : Session (List OpenElement)} {u : Unit} {outer : OpenElement}
    {above : List OpenElement} (hstate : s.state = outer :: above)
    (h : Yields (addressBlock standard e inside) s u t) :
    t.state = outer.addAll
      [addressBlockElement standard e.node e.address (w.foldl widened none) x] :: above ∧
        s.Warns t texts := by
  rw [addressBlock_eq] at h
  obtain ⟨_, s₀, hreset, hwithin⟩ := yields_bind.1 h
  obtain rfl := yields_resetBusWidth.1 hreset
  obtain ⟨_, s₁, hopen, hrun₁⟩ := yields_bind.1 hwithin
  obtain rfl := yields_build.1 hopen
  obtain ⟨_, s₂, hbody, hclose⟩ := yields_bind.1 hrun₁
  have hopened : ({ name := tag standard "addressBlock" } :: s.state : List OpenElement) =
      { name := tag standard "addressBlock" } :: outer :: above := congrArg _ hstate
  obtain ⟨_, s₃, hrun₃, hstate₃, hwidth₃, hwarns₃⟩ := (writes_nodeNames e.node).peel hopened hbody
  obtain ⟨_, s₄, hrun₄, hstate₄, hwidth₄, hwarns₄⟩ := (writes_presence _).peel hstate₃ hrun₃
  obtain ⟨_, s₅, hrun₅, hstate₅, hwidth₅, hwarns₅⟩ := (writes_value _ _).peel hstate₄ hrun₄
  obtain ⟨size, s₆, hsize, hrun₆⟩ := yields_bind.1 hrun₅
  obtain ⟨hsome, rfl⟩ := yields_checked.1 hsize
  obtain ⟨_, s₇, hrun₇, hstate₇, hwidth₇, hwarns₇⟩ := (writes_value _ _).peel hstate₅ hrun₆
  have hmemory : Writes (memoryValues standard e.node) _ _ := writes_memoryValues e.node
  have hmiddle := Reports.andThen hmemory fun _ => hinside
  obtain ⟨hwritten, hwarns₈⟩ := yields_slot hmiddle hstate₇ hrun₇
  have hnone : s₇.busWidth = none :=
    hwidth₇.trans (hwidth₅.trans (hwidth₄.trans hwidth₃))
  obtain ⟨hclosed, _, hwarns₉⟩ := yields_closeElement hwritten hclose
  have hwarned := hwarns₃.trans (hwarns₄.trans (hwarns₅.trans (hwarns₇.trans
    (hwarns₈.trans hwarns₉))))
  simp only [List.nil_append, List.append_nil] at hwarned
  refine ⟨?_, hwarned.warned_eq, hwarned.warnings_eq⟩
  rw [hclosed, hnone]
  simp [OpenElement.close, OpenElement.addAll, addressBlockElement, groupElement, hsome]

/-- The warnings of all that is left out inside an address block. -/
def blockTexts (options : WalkOptions) (e : Element) : List String :=
  (e.children options).flatMap (discardTexts options)

theorem yields_visitBlocks {es : List Element} (hvalid : ∀ e ∈ es, e.node.IsValid)
    {s t : Session (List OpenElement)} {u : Unit} {outer : OpenElement}
    {above : List OpenElement} (hstate : s.state = outer :: above)
    (h : Yields (forM es (emitter options).visitBlock) s u t) :
    t.state = outer.addAll (es.map (blockElement options.standard (walkOptions options))) ::
      above ∧ s.Warns t (es.flatMap (blockTexts (walkOptions options))) := by
  induction es generalizing s outer with
  | nil =>
    obtain ⟨_, rfl⟩ := yields_pure.1 h
    rw [List.map_nil, OpenElement.addAll_nil, hstate]
    exact ⟨rfl, .of_same rfl rfl⟩
  | cons e rest ih =>
    rw [List.forM_cons] at h
    obtain ⟨_, s', hblock, hrest⟩ := yields_bind.1 h
    have hbelow := reports_below (e := e) fun c hc => reports_meet options c
      (Element.isValid_of_mem_children (hvalid e List.mem_cons_self) hc)
      (Element.isSkipped_of_mem_children hc)
    obtain ⟨hstate', hwarns⟩ := yields_addressBlock hbelow hstate hblock
    obtain ⟨hstate'', hwarns'⟩ :=
      ih (fun c hc => hvalid c (List.mem_cons_of_mem e hc)) hstate' hrest
    rw [hstate'', OpenElement.addAll_addAll]
    exact ⟨rfl, hwarns.trans hwarns'⟩

/-! The description as a whole. -/

theorem yields_memoryMap {context : Context} {s t : Session (List OpenElement)} {u : Unit}
    (hstate : s.state = []) (h : Yields (memoryMap standard context) s u t) :
    t.state = [OpenElement.addAll { name := tag standard "memoryMap" }
      (mapNameElements standard context.top context.explosion)] ∧ s.Warns t [] := by
  obtain ⟨_, s', hopen, hnames⟩ := yields_bind.1 h
  obtain rfl := yields_build.1 hopen
  have hopened : ({ name := tag standard "memoryMap" } :: s.state : List OpenElement) =
      [{ name := tag standard "memoryMap" }] := congrArg _ hstate
  obtain ⟨top, destination, explosion⟩ := context
  cases explosion with
  | wrap =>
    obtain ⟨hstate', _, hwarns⟩ :=
      writes_value "name" (top.name ++ "_mmap") _ _ _ _ _ hopened hnames
    exact ⟨hstate', hwarns.warned_eq, hwarns.warnings_eq⟩
  | explode =>
    obtain ⟨hstate', _, hwarns⟩ := writes_nodeNames top _ _ _ _ _ hopened hnames
    exact ⟨hstate', hwarns.warned_eq, hwarns.warnings_eq⟩

theorem yields_visitTop {top : Node} (hvalid : top.IsValid) {s t : Session (List OpenElement)}
    {u : Unit} {outer : OpenElement} {above : List OpenElement} (explosion : Explosion)
    (hstate : s.state = outer :: above)
    (h : Yields ((emitter options).visitTop (.top top) explosion) s u t) :
    t.state = outer.addAll ((blocks (walkOptions options) top explosion).map
      (blockElement options.standard (walkOptions options))) :: above ∧
        s.Warns t ((blocks (walkOptions options) top explosion).flatMap
          (blockTexts (walkOptions options))) := by
  cases explosion with
  | wrap =>
    have hsingle : Yields (forM [Element.top top] (emitter options).visitBlock) s u t := by
      rw [List.forM_cons, List.forM_nil, bind_pure_unit]
      exact h
    have hblock : ∀ e ∈ [Element.top top], e.node.IsValid := by
      intro e he
      rw [List.mem_singleton.1 he]
      exact hvalid
    exact yields_visitBlocks hblock hstate hsingle
  | explode =>
    exact yields_visitBlocks (fun e he => Element.isValid_of_mem_children hvalid he) hstate
      (((emitter options).yields_needing).1 h).2

/-- What an export builds, writes and warns of is told by the map alone. -/
theorem state_and_render_of_produce {top : Node} {destination : Path} {a : Artifact}
    {s : Session (List OpenElement)}
    (h : (emitter options).produce top destination = (.ok a, s)) :
    ∃ built : OpenElement, s.state = [built] ∧
      built.close = memoryMapElement options.standard (walkOptions options) top ∧
      a = .text (component options top.name built.close).render ∧
      ((emitter options).opening top destination).Warns s
        ((blocks (walkOptions options) top (.decide top)).flatMap
          (blockTexts (walkOptions options))) := by
  obtain ⟨⟨_, hvalid⟩, hsteps⟩ := (emitter options).produce_eq_ok_iff.1 h
  obtain ⟨_, s₁, hstart, hrest⟩ := yields_bind.1 hsteps
  obtain ⟨_, s₂, hvisit, hfinish⟩ := yields_bind.1 hrest
  obtain ⟨hstate₁, hwarns₁⟩ := yields_memoryMap rfl hstart
  obtain ⟨hstate₂, hwarns₂⟩ :=
    yields_visitTop (Node.isValid_of_validate hvalid) _ hstate₁ hvisit
  obtain ⟨built, s₃, hbuilt, hpure⟩ := yields_bind.1 hfinish
  obtain ⟨rfl, rfl⟩ := yields_built.1 hbuilt
  simp only [hstate₂, yields_pure] at hpure
  obtain ⟨hartifact, rfl⟩ := hpure
  refine ⟨_, hstate₂, ?_, hartifact.symm, hwarns₁.trans hwarns₂⟩
  rw [OpenElement.addAll_addAll]
  simp only [OpenElement.close, OpenElement.addAll, Array.empty_append, List.toList_toArray]
  rfl

theorem eq_render_and_warns_of_produce {top : Node} {destination : Path} {a : Artifact}
    {s : Session (List OpenElement)}
    (h : (emitter options).produce top destination = (.ok a, s)) :
    a = .text (component options top.name
      (memoryMapElement options.standard (walkOptions options) top)).render ∧
    ((emitter options).opening top destination).Warns s
      ((blocks (walkOptions options) top (.decide top)).flatMap
        (blockTexts (walkOptions options))) := by
  obtain ⟨built, _, hclose, hartifact, hwarns⟩ := state_and_render_of_produce h
  exact ⟨hclose ▸ hartifact, hwarns⟩

theorem eq_render_of_produce {top : Node} {destination : Path} {a : Artifact}
    {s : Session (List OpenElement)}
    (h : (emitter options).produce top destination = (.ok a, s)) :
    a = .text (component options top.name
      (memoryMapElement options.standard (walkOptions options) top)).render :=
  (eq_render_and_warns_of_produce h).1

end RegisterMap.Ipxact
