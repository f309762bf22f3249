import RegisterMap.Header.Emitter
import RegisterMap.Html.Emitter
import RegisterMap.Ipxact.Emitter
import RegisterMap.Proofs.Overflow
import RegisterMap.Uvm.Emitter

/-!
Which exports cannot overflow. The steps of all four emitters are gone through for
what they need to be words: sizes and ranges, the widths of fields, and in a
register model the offsets of all elements of an array, which are listed.
-/

namespace RegisterMap

open ExportM

/-! Constants. -/

namespace Header

variable {words : Prop}

theorem composed_define (path name value : String) :
    Composed words (define path name value) := by
  unfold define
  refine .bind .built fun d => ?_
  cases d.valueOf? name with
  | none => exact .build _
  | some first =>
    simp only
    split
    · exact .warn _
    · exact .pure ()

theorem composed_defineMemory {e : Element} (h : words → e.Fits) (name : String) :
    Composed words (defineMemory e name) :=
  .bind (.checked fun hwords => (h hwords).isSome_size?) fun _ =>
    .bind (composed_define _ _ _) fun _ => composed_define _ _ _

theorem composed_defineField {e : Element} {f : Field} (h : words → f.width?.isSome = true) :
    Composed words (defineField f e) := by
  have hmask (hwords : words) : f.mask?.isSome = true := by
    obtain ⟨width, hwidth⟩ := Option.isSome_iff_exists.1 (h hwords)
    rw [Field.mask?, hwidth]
    rfl
  exact .bind (.checked hmask) fun _ =>
    .bind (composed_define _ _ _) fun _ => composed_define _ _ _

theorem keepsWords (options : HeaderOptions) : (emitter options).KeepsWords fun _ => True where
  start _ := .pure ()
  block e inside h hinside := by
    refine .bind (.build _) fun _ => ?_
    split
    · exact composed_defineMemory h _
    · exact hinside
  registerFile _ _ _ _ _ _ hinside := hinside
  register _ e _ _ _ _ hinside :=
    .bind (.checkRegisterArray e) fun _ => .bind (composed_define _ _ _) fun _ => hinside
  memory _ _ hparent he _ := composed_defineMemory (fun hwords => (hparent hwords).child he) _
  field _ _ h hkind hf _ := composed_defineField fun hwords => (h hwords).isSome_width? hkind hf
  finish _ := .bind .built fun _ => .pure _

end Header

/-! Register models. -/

namespace Uvm

variable {words : Prop}

theorem composed_takeName (base suffix : String) :
    Composed words (takeName base suffix) :=
  .bind .built fun _ => .bind (.build _) fun _ => .pure _

theorem composed_inParent (change : BlockClass → BlockClass) :
    Composed words (inParent change) :=
  .bind .built fun _ => .guarded _ (.build _)

theorem composed_takeMemoryClass (e : Element) : Composed words (takeMemoryClass e) :=
  .bind (composed_takeName _ _) fun _ => .bind (.build _) fun _ => .pure _

theorem composed_takeBlockClass (e : Element) {inside : UvmM Unit}
    (h : Composed words inside) : Composed words (takeBlockClass e inside) := by
  refine .bind (composed_takeName _ _) fun _ => .bind (.build _) fun _ =>
    .bind h fun _ => .bind .built fun s => ?_
  cases s.stack with
  | nil => exact .fail _
  | cons finished above => exact .bind (.build _) fun _ => .pure finished

theorem composed_addMember {e : Element} (h : words → e.node.isListable 0 = true)
    (kind : MemberKind) (className : String) (rights : Rights) (width : Option Nat) :
    Composed words (addMember e kind className rights width) := by
  unfold addMember
  split
  · exact composed_inParent _
  case isFalse hnot =>
    exact .bind (.overflow fun hwords => hnot (h hwords)) fun _ => composed_inParent _

theorem composed_addressBlock (e : Element) {inside : UvmM Unit}
    (h : Composed words inside) : Composed words (addressBlock e inside) := by
  refine .bind .resetBusWidth fun _ => .bind (.info _) fun _ => ?_
  split
  · exact .bind (composed_takeMemoryClass e) fun _ => composed_inParent _
  · exact .bind (composed_takeBlockClass e h) fun _ =>
      .bind .busWidth fun _ => composed_inParent _

theorem composed_registerMember {e : Element} (hlistable : words → e.node.isListable 0 = true)
    {inside : UvmM Unit} (h : Composed words inside) :
    Composed words (registerMember e inside) := by
  refine .bind (.checkRegisterArray e) fun _ => .bind (composed_takeName _ _) fun _ =>
    .bind (.build _) fun _ => .bind h fun _ => .bind .built fun s => ?_
  cases s.register with
  | none => exact .fail _
  | some finished =>
    exact .bind (.build _) fun _ => .bind (.observeBusWidth _) fun _ =>
      composed_addMember hlistable _ _ _ _

theorem composed_fieldMember {e : Element} {f : Field} (h : words → f.width?.isSome = true)
    (access : AccessCode) : Composed words (fieldMember f access e) := by
  refine .bind .built fun s => ?_
  cases s.register with
  | none => exact .fail _
  | some current => exact .bind (.checked h) fun _ => .build _

theorem keepsWords (options : UvmOptions) :
    (emitter options).KeepsWords fun n => n.elementCount < Word.listLimit where
  start _ := .bind (composed_takeName _ _) fun _ => .build _
  block e _ _ hinside := composed_addressBlock e hinside
  registerFile _ e _ hparent he hcount hinside :=
    .bind (composed_takeBlockClass e hinside) fun _ => composed_addMember
      (fun hwords => (hparent hwords).isListable he (hcount hwords)) _ _ _ _
  register _ _ _ hparent he hcount hinside := composed_registerMember
    (fun hwords => (hparent hwords).isListable he (hcount hwords)) hinside
  memory _ e hparent he hcount :=
    .bind (composed_takeMemoryClass e) fun _ => composed_addMember
      (fun hwords => (hparent hwords).isListable he (hcount hwords)) _ _ _ _
  field _ _ h hkind hf access :=
    composed_fieldMember (fun hwords => (h hwords).isSome_width? hkind hf) access
  finish context := by
    refine .bind .built fun s => ?_
    cases s.stack with
    | nil => exact .fail _
    | cons model above => exact .pure _

end Uvm

/-! Component descriptions. -/

namespace Ipxact

variable {words : Prop} (standard : IpxactStandard)

theorem composed_closeElement : Composed words closeElement :=
  .bind .built fun _ => .guarded _ (.build _)

theorem composed_value (name text : String) : Composed words (value standard name text) :=
  .bind .built fun _ => .guarded _ (.build _)

theorem composed_optionalValue (name : String) (text : Option String) :
    Composed words (optionalValue standard name text) := by
  cases text with
  | none => exact .pure ()
  | some text => exact composed_value standard name text

theorem composed_nameGroup (name : String) (displayName desc : Option String) :
    Composed words (nameGroup standard name displayName desc) :=
  .bind (composed_value standard _ _) fun _ =>
    .bind (composed_optionalValue standard _ _) fun _ => composed_optionalValue standard _ _

theorem composed_within (name : String) {inside : IpxactM Unit}
    (h : Composed words inside) : Composed words (within standard name inside) :=
  .bind (.build _) fun _ => .bind h fun _ => composed_closeElement

theorem composed_presence (isPresent : Bool) :
    Composed words (presence standard isPresent) := by
  unfold presence
  split
  · exact .pure ()
  · exact composed_value standard _ _

theorem composed_dimensions (n : Node) : Composed words (dimensions standard n) :=
  .forM fun _ _ => composed_value standard _ _

theorem composed_lastSlot : Composed words lastSlot := by
  refine .bind .built fun stack => ?_
  cases stack with
  | nil => exact .pure _
  | cons parent above => exact .pure _

theorem composed_addressBlock {e : Element} (h : words → e.Fits) {inside : IpxactM Unit}
    (hinside : Composed words inside) :
    Composed words (addressBlock standard e inside) := by
  refine .bind .resetBusWidth fun _ => composed_within standard _ ?_
  refine .bind (composed_nameGroup standard _ _ _) fun _ =>
    .bind (composed_presence standard _) fun _ =>
    .bind (composed_value standard _ _) fun _ =>
    .bind (.checked fun hwords => (h hwords).isSome_size?) fun size =>
    .bind (composed_value standard _ _) fun _ =>
    .bind (composed_value standard _ _) fun _ =>
    .bind composed_lastSlot fun slot => ?_
  have hrest : Composed words (do
      inside
      fillSlot slot (toString (blockWidth e.node (← .busWidth)))) :=
    .bind hinside fun _ => .bind .busWidth fun _ => .build _
  split
  · exact .bind (composed_value standard _ _) fun _ =>
      .bind (composed_optionalValue standard _ _) fun _ => hrest
  · exact hrest

theorem composed_registerFile {e : Element} (h : words → e.Fits) {inside : IpxactM Unit}
    (hinside : Composed words inside) :
    Composed words (registerFile standard e inside) :=
  composed_within standard _ <|
    .bind (composed_nameGroup standard _ _ _) fun _ =>
    .bind (composed_presence standard _) fun _ =>
    .bind (composed_dimensions standard _) fun _ =>
    .bind (composed_value standard _ _) fun _ =>
    .bind (.checked fun hwords => (h hwords).isSome_rangeSize?) fun _ =>
    .bind (composed_value standard _ _) fun _ => hinside

theorem composed_register (e : Element) {inside : IpxactM Unit}
    (hinside : Composed words inside) : Composed words (register standard e inside) := by
  have hregister : Composed words (within standard "register" do
      nodeNames standard e.node
      presence standard e.node.isPresent
      dimensions standard e.node
      value standard "addressOffset" (Text.hexLiteral e.node.offset)
      value standard "size" (toString e.node.regWidth)
      .observeBusWidth e.node.busWidth
      inside) :=
    composed_within standard _ <|
      .bind (composed_nameGroup standard _ _ _) fun _ =>
      .bind (composed_presence standard _) fun _ =>
      .bind (composed_dimensions standard _) fun _ =>
      .bind (composed_value standard _ _) fun _ =>
      .bind (composed_value standard _ _) fun _ =>
      .bind (.observeBusWidth _) fun _ => hinside
  refine .bind (.checkRegisterArray e) fun check => ?_
  cases check with
  | sparse stride size => exact .warn _
  | contiguous => exact hregister
  | overlapping stride size => exact hregister

theorem composed_enumeratedValues (values : List EnumeratedValue) :
    Composed words (values.forM (enumeratedValue standard)) :=
  .forM fun _ _ => composed_within standard _ <|
    .bind (composed_nameGroup standard _ _ _) fun _ => composed_value standard _ _

theorem composed_field {f : Field} (h : words → f.width?.isSome = true) :
    Composed words (field standard f) := by
  refine composed_within standard _ <|
    .bind (composed_nameGroup standard _ _ _) fun _ =>
    .bind (composed_presence standard _) fun _ =>
    .bind (composed_value standard _ _) fun _ => ?_
  -- What follows an optional part is shared by both of its cases.
  extract_lets +lift effects access width
  have heffects : ∀ u, Composed words (effects u) := by
    intro _
    refine .bind (composed_optionalValue standard _ _) fun _ =>
      .bind (composed_optionalValue standard _ _) fun _ => ?_
    split
    · exact composed_value standard _ _
    · exact .pure ()
  have haccess : ∀ u, Composed words (access u) := by
    intro _
    refine .bind (composed_optionalValue standard _ _) fun _ => ?_
    cases f.encode? with
    | none => exact heffects ()
    | some values =>
      exact .bind (composed_within standard _ (composed_enumeratedValues standard _)) heffects
  have hwidth : ∀ u, Composed words (width u) := by
    intro _
    refine .bind (.checked h) fun _ => .bind (composed_value standard _ _) fun _ => ?_
    cases f.isVolatile with
    | false => exact haccess ()
    | true => exact .bind (composed_value standard _ _) haccess
  cases f.reset? with
  | none => exact hwidth ()
  | some reset =>
    exact .bind (composed_within standard _
      (composed_within standard _ (composed_value standard _ _))) hwidth

theorem keepsWords (options : IpxactOptions) : (emitter options).KeepsWords fun _ => True where
  start context := by
    refine .bind (.build _) fun _ => ?_
    cases context.explosion with
    | explode => exact composed_nameGroup _ _ _ _
    | wrap => exact composed_value _ _ _
  block _ _ h hinside := composed_addressBlock _ h hinside
  registerFile _ _ _ hparent he _ hinside :=
    composed_registerFile _ (fun hwords => (hparent hwords).child he) hinside
  register _ e _ _ _ _ hinside := composed_register _ e hinside
  memory _ _ _ _ _ := .warn _
  field _ _ h hkind hf _ := composed_field _ fun hwords => (h hwords).isSome_width? hkind hf
  finish _ := by
    refine .bind .built fun stack => ?_
    cases stack with
    | nil => exact .fail _
    | cons memoryMap above => exact .pure _

end Ipxact

/-! Pages. -/

namespace Html

variable {words : Prop} (setup : Setup)

theorem composed_describe (text : Option String) (origin : Option Path) :
    Composed words (describe setup text origin) := by
  unfold describe
  cases text.filter fun t => !Text.allBlank t.toList with
  | none => exact .pure none
  | some text =>
    refine .bind .built fun s => ?_
    cases bundleImages setup.view origin
        (promoteHeadings setup.options.headingOffset (setup.renderer.render text)) s.assets with
    | error e => exact .fail e
    | ok bundled => exact .bind (.build _) fun _ => .pure _

theorem composed_visitNode {e : Element} (h : words → e.Fits) {inside : HtmlM Unit}
    (hinside : Composed words inside) : Composed words (visitNode setup e inside) := by
  refine .bind .takeId fun _ =>
    .bind (.checked fun hwords => (h hwords).isSome_size?) fun _ =>
    .bind .built fun _ => .bind (.build _) fun _ => .bind (.build _) fun _ =>
    .bind hinside fun _ => .bind (.build _) fun _ =>
    .bind (composed_describe setup _ _) fun _ => .bind .built fun _ =>
    .bind (.build _) fun _ => ?_
  split
  · exact .build _
  · exact .pure ()

theorem composed_visitField (f : Field) (access : AccessCode) :
    Composed words (visitField setup f access) :=
  .bind .built fun _ => .bind (composed_describe setup _ _) fun _ =>
    .bind (.mapM fun _ => .bind (composed_describe setup _ _) fun _ => .pure _) fun _ =>
      .build _

theorem keepsWords : (emitter setup).KeepsWords fun _ => True where
  start _ := .pure ()
  block _ _ h hinside := composed_visitNode setup h hinside
  registerFile _ _ _ hparent he _ hinside :=
    composed_visitNode setup (fun hwords => (hparent hwords).child he) hinside
  register _ e _ hparent he _ hinside :=
    .bind (.checkRegisterArray e) fun _ =>
      composed_visitNode setup (fun hwords => (hparent hwords).child he) hinside
  memory _ _ hparent he _ :=
    composed_visitNode setup (fun hwords => (hparent hwords).child he) (.pure ())
  field _ f _ _ _ access := composed_visitField setup f access
  finish _ := .bind .built fun _ => .bind (.debug _) fun _ => .pure _

end Html

/-! All four. -/

/-- The sizes of a valid map and the addresses of its unrolled walk are words exactly if
the map fits the address space, and then no export of it overflows. A register model needs
arrays that can be listed besides. -/
theorem Node.never_overflows_iff_fits {n : Node} (hvalid : n.validate = .ok ()) :
    (((∀ m ∈ n.subtree, (∃ size < Word.limit, m.size? = some size) ∧
        ∃ total < Word.limit, m.totalSize? = some total) ∧
      ∀ e ∈ Element.allBelow { unroll := true } n, e.address < Word.limit) ↔
        n.FitsAddressSpace) ∧
    (n.FitsAddressSpace → ∀ destination,
      (∀ options, ((Header.emitter options).produce n destination).1 ≠ .error .overflow) ∧
      (∀ options, ((Ipxact.emitter options).produce n destination).1 ≠ .error .overflow) ∧
      (∀ setup, ((Html.emitter setup).produce n destination).1 ≠ .error .overflow) ∧
      ((∀ m ∈ n.subtree, m.elementCount < Word.listLimit) →
        ∀ options, ((Uvm.emitter options).produce n destination).1 ≠ .error .overflow)) := by
  refine ⟨(fitsAddressSpace_iff (isValid_of_validate hvalid)).symm, ?_⟩
  intro hfits destination
  have hall : ∀ m ∈ n.subtree, True := fun _ _ => trivial
  refine ⟨fun options => ?_, fun options => ?_, fun setup => ?_, fun hcount options => ?_⟩
  · exact (Header.keepsWords options).produce_ne_overflow hfits hall destination
  · exact (Ipxact.keepsWords options).produce_ne_overflow hfits hall destination
  · exact (Html.keepsWords setup).produce_ne_overflow hfits hall destination
  · exact (Uvm.keepsWords options).produce_ne_overflow hfits hcount destination

/-- Two registers from an offset on. -/
def pairAt (offset : Nat) : Node :=
  let pair : Node := { name := "r", kind := .reg, offset, array := some ⟨[2], 4⟩ }
  { name := "t", kind := .addrmap, children := [pair] }

/-- A pair may come as close to the end of the address space as this. -/
theorem pairAt_never_overflows :
    (pairAt 18446744073709551604).validate = .ok () ∧
      (pairAt 18446744073709551604).FitsAddressSpace ∧
      ∀ options destination,
        ((Header.emitter options).produce (pairAt 18446744073709551604) destination).1 ≠
          .error .overflow := by
  have hvalid : (pairAt 18446744073709551604).validate = .ok () := by decide +kernel
  have hfits : (pairAt 18446744073709551604).FitsAddressSpace := by decide
  exact ⟨hvalid, hfits, fun options destination =>
    ((Node.never_overflows_iff_fits hvalid).2 hfits destination).1 options⟩

/-- Validation takes a pair whose second register lies beyond the address space. -/
theorem pairAt_overflows :
    (pairAt 18446744073709551612).validate = .ok () ∧
      ¬ (pairAt 18446744073709551612).FitsAddressSpace ∧
      (pairAt 18446744073709551612).size? = none ∧
      (∃ e ∈ Element.allBelow { unroll := true } (pairAt 18446744073709551612),
        ¬ e.address < Word.limit) ∧
      ((Header.emitter {}).produce (pairAt 18446744073709551612) ⟨"t.h"⟩).1 =
        .error .overflow := by
  have hvalid : (pairAt 18446744073709551612).validate = .ok () := by decide +kernel
  refine ⟨hvalid, by decide, by decide, by decide, ?_⟩
  rw [Emitter.produce_eq _ rfl hvalid]
  rfl

end RegisterMap
