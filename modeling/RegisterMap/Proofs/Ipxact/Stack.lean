import RegisterMap.Ipxact.Emitter
import RegisterMap.Proofs.Guards

/-!
The stack of open elements of a component description. A step closes what it opens, and
nothing is written without an element around it: of the stops of an export none is due to
the stack.
-/

namespace RegisterMap.Ipxact

open ExportM

variable (standard : IpxactStandard) {may : Stop → Prop}

/-- The elements that are open: so many in the one that was opened first. -/
def OpenTo (depth : Nat) (stack : List OpenElement) : Prop := stack.length = depth + 1

theorem settles_value (name text : String) :
    Settles OpenTo (value standard name text) True may := by
  apply Settles.built_bind
  intro depth stack hdepth
  unfold OpenTo at hdepth ⊢
  have hopen : ¬ stack.isEmpty = true := by
    rw [List.isEmpty_iff_length_eq_zero]
    omega
  refine .passed _ hopen (.build fun a ha => ⟨?_, trivial⟩)
  rw [List.length_modifyHead, ha, hdepth]

theorem settles_optionalValue (name : String) (text : Option String) :
    Settles OpenTo (optionalValue standard name text) True may := by
  cases text with
  | none => exact .skip
  | some text => exact settles_value standard name text

theorem settles_nameGroup (name : String) (displayName desc : Option String) :
    Settles OpenTo (nameGroup standard name displayName desc) True may :=
  (settles_value standard _ _).next fun _ _ =>
    (settles_optionalValue standard _ _).next fun _ _ => settles_optionalValue standard _ _

/-- What is opened is closed again, in the element around it. -/
theorem settles_within (name : String) {inside : IpxactM Unit} {fact : Prop}
    (h : Settles OpenTo inside fact may) :
    Settles OpenTo (within standard name inside) fact may := by
  intro depth
  refine Ensures.bind (m := fun _ => OpenTo (depth + 1)) (.build fun a ha => ?_) fun _ => ?_
  · exact congrArg (· + 1) ha
  · refine (h (depth + 1)).bind fun _ => .built_bind fun stack hstack => ?_
    obtain ⟨hdepth, hfact⟩ := hstack
    unfold OpenTo at hdepth
    refine .passed _ (by omega) (.build fun a ha => ⟨?_, hfact⟩)
    rw [← ha] at hdepth
    match a, hdepth with
    | element :: outer :: above, hdepth => simpa [OpenTo] using hdepth

theorem settles_presence (isPresent : Bool) :
    Settles OpenTo (presence standard isPresent) True may := by
  unfold presence
  split
  · exact .skip
  · exact settles_value standard _ _

theorem settles_dimensions (n : Node) : Settles OpenTo (dimensions standard n) True may :=
  (Settles.forM fun _ _ => settles_value standard _ _).imp fun _ => trivial

theorem settles_lastSlot : Settles OpenTo lastSlot True may := by
  apply Settles.built_bind
  intro depth stack hdepth
  cases stack with
  | nil => exact .pure fun _ ha => ⟨ha ▸ hdepth, trivial⟩
  | cons parent above => exact .pure fun _ ha => ⟨ha ▸ hdepth, trivial⟩

theorem settles_fillSlot (slot : Nat) (text : String) :
    Settles OpenTo (fillSlot slot text) True may := by
  refine .build fun depth stack hdepth => ?_
  unfold OpenTo at hdepth ⊢
  rw [List.length_modifyHead, hdepth]

theorem settles_addressBlock (hoverflow : may .overflow) (e : Element) {inside : IpxactM Unit}
    {fact : Prop} (hinside : Settles OpenTo inside fact may) :
    Settles OpenTo (addressBlock standard e inside) fact may := by
  refine (Settles.of_keeps fun _ => .resetBusWidth).next fun _ _ => settles_within standard _ ?_
  refine (settles_nameGroup standard _ _ _).next fun _ _ =>
    (settles_presence standard _).next fun _ _ =>
    (settles_value standard _ _).next fun _ _ =>
    (Settles.checked hoverflow).next fun size _ =>
    (settles_value standard _ _).next fun _ _ =>
    (settles_value standard _ _).next fun _ _ =>
    settles_lastSlot.next fun _ slot => ?_
  have hrest : Settles OpenTo (do
      inside
      fillSlot slot (toString (blockWidth e.node (← .busWidth)))) fact may :=
    hinside.next fun hfact _ => (Settles.of_keeps fun _ => .busWidth).next fun _ _ =>
      (settles_fillSlot _ _).imp fun _ => hfact
  split
  · exact (settles_value standard _ _).next fun _ _ =>
      (settles_optionalValue standard _ _).next fun _ _ => hrest
  · exact hrest

theorem settles_registerFile (hoverflow : may .overflow) (e : Element) {inside : IpxactM Unit}
    {fact : Prop} (hinside : Settles OpenTo inside fact may) :
    Settles OpenTo (registerFile standard e inside) fact may :=
  settles_within standard _ <|
    (settles_nameGroup standard _ _ _).next fun _ _ =>
    (settles_presence standard _).next fun _ _ =>
    (settles_dimensions standard _).next fun _ _ =>
    (settles_value standard _ _).next fun _ _ =>
    (Settles.checked hoverflow).next fun _ _ =>
    (settles_value standard _ _).next fun _ _ => hinside

theorem settles_register (e : Element) {inside : IpxactM Unit} (hmay : e.MayRefuse may)
    (hinside : Settles OpenTo inside True may) :
    Settles OpenTo (register standard e inside) e.node.IsSpaced may := by
  have hregister : Settles OpenTo (within standard "register" do
      nodeNames standard e.node
      presence standard e.node.isPresent
      dimensions standard e.node
      value standard "addressOffset" (Text.hexLiteral e.node.offset)
      value standard "size" (toString e.node.regWidth)
      .observeBusWidth e.node.busWidth
      inside) True may :=
    settles_within standard _ <|
      (settles_nameGroup standard _ _ _).next fun _ _ =>
      (settles_presence standard _).next fun _ _ =>
      (settles_dimensions standard _).next fun _ _ =>
      (settles_value standard _ _).next fun _ _ =>
      (settles_value standard _ _).next fun _ _ =>
      (Settles.of_keeps fun _ => .observeBusWidth _).next fun _ _ => hinside
  refine (settles_checkRegisterArray hmay).next fun hspaced check => ?_
  cases check with
  | sparse stride size => exact (Settles.warn _).imp fun _ => hspaced
  | contiguous => exact hregister.imp fun _ => hspaced
  | overlapping stride size => exact hregister.imp fun _ => hspaced

theorem settles_enumeratedValues (values : List EnumeratedValue) :
    Settles OpenTo (values.forM (enumeratedValue standard)) True may :=
  (Settles.forM fun _ _ => settles_within standard _ <|
    (settles_nameGroup standard _ _ _).next fun _ _ => settles_value standard _ _).imp
      fun _ => trivial

theorem settles_field (hoverflow : may .overflow) (f : Field) :
    Settles OpenTo (field standard f) True may := by
  refine settles_within standard _ <|
    (settles_nameGroup standard _ _ _).next fun _ _ =>
    (settles_presence standard _).next fun _ _ =>
    (settles_value standard _ _).next fun _ _ => ?_
  -- What follows an optional part is shared by both of its cases.
  extract_lets +lift effects access width
  have heffects : ∀ u, Settles OpenTo (effects u) True may := by
    intro _
    refine (settles_optionalValue standard _ _).next fun _ _ =>
      (settles_optionalValue standard _ _).next fun _ _ => ?_
    split
    · exact settles_value standard _ _
    · exact .skip
  have haccess : ∀ u, Settles OpenTo (access u) True may := by
    intro _
    refine (settles_optionalValue standard _ _).next fun _ _ => ?_
    cases f.encode? with
    | none => exact heffects ()
    | some values =>
      exact (settles_within standard _ (settles_enumeratedValues standard values)).next
        fun _ _ => heffects ()
  have hwidth : ∀ u, Settles OpenTo (width u) True may := by
    intro _
    refine (Settles.checked hoverflow).next fun _ _ =>
      (settles_value standard _ _).next fun _ _ => ?_
    cases f.isVolatile with
    | false => exact haccess ()
    | true => exact (settles_value standard _ _).next fun _ _ => haccess ()
  cases f.reset? with
  | none => exact hwidth ()
  | some reset =>
    exact (settles_within standard _ (settles_within standard _
      (settles_value standard _ _))).next fun _ _ => hwidth ()

theorem guards (options : IpxactOptions) (hoverflow : may .overflow) :
    (emitter options).Guards OpenTo OpenTo (fun _ => True) may where
  overflow := hoverflow
  single _ _ := trivial
  start context := by
    refine ⟨0, Ensures.bind (m := fun _ => OpenTo 0) (.build fun a ha => ?_) fun _ => ?_⟩
    · rw [ha]
      rfl
    · obtain ⟨top, destination, explosion⟩ := context
      cases explosion with
      | explode =>
        exact (settles_nameGroup _ _ _ _ 0).weaken (fun _ ha => ha) fun _ _ ha => ha.1
      | wrap => exact (settles_value _ _ _ 0).weaken (fun _ ha => ha) fun _ _ ha => ha.1
  block e _ _ _ hinside := settles_addressBlock _ hoverflow e hinside
  registerFile _ e _ _ hinside :=
    (settles_registerFile _ hoverflow e hinside).imp fun hfact => ⟨hfact, trivial⟩
  register _ e _ hmay hinside :=
    (settles_register _ e hmay hinside).imp fun hspaced => ⟨hspaced, trivial⟩
  memory _ _ := .warn _
  field f _ _ := settles_field _ hoverflow f
  finish _ depth := by
    refine .built_bind fun stack hdepth => ?_
    cases stack with
    | nil => simp [OpenTo] at hdepth
    | cons memoryMap above => exact .pure fun _ _ => trivial

end RegisterMap.Ipxact
