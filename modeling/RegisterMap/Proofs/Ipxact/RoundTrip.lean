import RegisterMap.Proofs.Ipxact.Build
import RegisterMap.Proofs.Visited
import RegisterMap.Proofs.Xml.RoundTrip

/-!
Component descriptions lose nothing of their elements. The names are the words of the format
behind the prefix of its standard; the texts of a map and of the options are texts of
elements that have no others in them. A reader of the document gets to the same tree.
-/

namespace RegisterMap

/-- An element has a text or other elements in it, and not both. -/
def Xml.IsFilled (x : Xml) : Prop := x.text.isSome = true ↔ x.children = []

instance (x : Xml) : Decidable x.IsFilled :=
  decidable_of_iff (x.text.isSome = true ↔ x.children.isEmpty = true) (by
    rw [Xml.IsFilled, List.isEmpty_iff])

namespace Ipxact

open Xml (IsName isNameChar)

variable (standard : IpxactStandard)

/-- An element of a description: all have a text or others in them, but a list of values that
may be empty. -/
structure IsPart (mayBeEmpty : Prop) (x : Xml) : Prop where
  plain : x.IsPlain
  filled : x.IsFilled ∨ x = groupElement standard "enumeratedValues" [] ∧ mayBeEmpty

/-- An element and all below it are elements of a description. -/
def IsDescription (mayBeEmpty : Prop) (x : Xml) : Prop :=
  ∀ y ∈ x.elements, IsPart standard mayBeEmpty y

/-- A word of the format is a name. -/
def IsWord (name : String) : Prop := ∀ c ∈ name.toList, isNameChar c = true

instance (name : String) : Decidable (IsWord name) :=
  decidable_of_iff (name.toList.all isNameChar = true) (by simp [IsWord])

variable {standard} {Q : Prop}

theorem isName_tag {name : String} (h : IsWord name) : IsName (tag standard name) := by
  have hspace : IsWord standard.space := by cases standard <;> decide
  have hchars : (tag standard name).toList = standard.space.toList ++ ':' :: name.toList := by
    simp [tag]
  rw [IsName, hchars]
  refine ⟨List.append_ne_nil_of_right_ne_nil _ (List.cons_ne_nil _ _), ?_⟩
  exact List.forall_mem_append.2 ⟨hspace, List.forall_mem_cons.2 ⟨by decide, h⟩⟩

theorem IsDescription.of_children {x : Xml} (hx : IsPart standard Q x)
    (hchildren : ∀ c ∈ x.children, IsDescription standard Q c) : IsDescription standard Q x := by
  rw [IsDescription, Xml.elements_eq, List.forall_mem_cons]
  refine ⟨hx, fun y hy => ?_⟩
  obtain ⟨c, hc, hy⟩ := List.mem_flatMap.1 hy
  exact hchildren c hc y hy

theorem IsDescription.mono {R : Prop} (hQR : Q → R) {x : Xml} (h : IsDescription standard Q x) :
    IsDescription standard R x :=
  fun y hy => ⟨(h y hy).plain, (h y hy).filled.imp_right fun hempty => ⟨hempty.1, hQR hempty.2⟩⟩

theorem isDescription_leaf {name : String} (h : IsWord name) (text : String) :
    IsDescription standard Q (leafElement standard name text) :=
  .of_children ⟨⟨isName_tag h, fun _ ha => absurd ha List.not_mem_nil, .inr rfl⟩,
    .inl (iff_of_true rfl rfl)⟩ fun _ hc => absurd hc List.not_mem_nil

theorem isDescription_group {name : String} (h : IsWord name) {children : List Xml}
    (hne : children ≠ []) (hchildren : ∀ c ∈ children, IsDescription standard Q c) :
    IsDescription standard Q (groupElement standard name children) :=
  .of_children ⟨⟨isName_tag h, fun _ ha => absurd ha List.not_mem_nil, .inl rfl⟩,
    .inl (iff_of_false Bool.false_ne_true hne)⟩ hchildren

theorem isDescription_optional {name : String} (h : IsWord name) (text : Option String) :
    ∀ x ∈ optionalElement standard name text, IsDescription standard Q x := by
  intro x hx
  cases text with
  | none => cases hx
  | some text =>
    rw [List.mem_singleton.1 hx]
    exact isDescription_leaf h text

/-- An element that stands there in one case only. -/
theorem isDescription_ite {name : String} (h : IsWord name) (text : String) (b : Bool) :
    ∀ x ∈ (if b then [leafElement standard name text] else []), IsDescription standard Q x := by
  cases b with
  | false => exact fun x hx => absurd hx List.not_mem_nil
  | true => exact List.forall_mem_singleton.2 (isDescription_leaf h text)

theorem isDescription_names (name : String) (displayName desc : Option String) :
    ∀ x ∈ nameElements standard name displayName desc, IsDescription standard Q x :=
  List.forall_mem_cons.2 ⟨isDescription_leaf (by decide) name, List.forall_mem_append.2
    ⟨isDescription_optional (by decide) displayName, isDescription_optional (by decide) desc⟩⟩

theorem isDescription_presence (isPresent : Bool) :
    ∀ x ∈ presenceElements standard isPresent, IsDescription standard Q x := by
  cases isPresent with
  | false => exact List.forall_mem_singleton.2 (isDescription_leaf (by decide) "0")
  | true => exact fun x hx => absurd hx List.not_mem_nil

theorem isDescription_dimensions (n : Node) :
    ∀ x ∈ dimensionElements standard n, IsDescription standard Q x := by
  intro x hx
  obtain ⟨d, _, rfl⟩ := List.mem_map.1 hx
  exact isDescription_leaf (by decide) _

theorem isDescription_enumeratedValue (v : EnumeratedValue) :
    IsDescription standard Q (enumeratedValueElement standard v) :=
  isDescription_group (by decide) (List.cons_ne_nil _ _) (List.forall_mem_append.2
    ⟨isDescription_names v.name v.displayName v.desc,
      List.forall_mem_singleton.2 (isDescription_leaf (by decide) _)⟩)

theorem isDescription_reset (reset : Nat) :
    IsDescription standard Q (resetElement standard reset) := by
  have hvalue : IsDescription standard Q (leafElement standard "value" (Text.hexLiteral reset)) :=
    isDescription_leaf (by decide) _
  have hreset := isDescription_group (show IsWord "reset" by decide) (List.cons_ne_nil _ _)
    (List.forall_mem_singleton.2 hvalue)
  exact isDescription_group (by decide) (List.cons_ne_nil _ _) (List.forall_mem_singleton.2 hreset)

/-- The list of values of a field, the one element that may have nothing in it. -/
theorem isDescription_enumeratedValues (values : List EnumeratedValue) :
    IsDescription standard (values = []) (groupElement standard "enumeratedValues"
      (values.map (enumeratedValueElement standard))) := by
  by_cases hempty : values = []
  · subst hempty
    refine .of_children ⟨⟨isName_tag (by decide), ?_, .inl rfl⟩, .inr ⟨rfl, rfl⟩⟩ ?_
    · exact fun _ ha => absurd ha List.not_mem_nil
    · exact fun _ hc => absurd hc List.not_mem_nil
  · refine isDescription_group (by decide) (by simpa using hempty) fun x hx => ?_
    obtain ⟨v, _, rfl⟩ := List.mem_map.1 hx
    exact isDescription_enumeratedValue v

theorem isDescription_effects (f : Field) :
    ∀ x ∈ effectElements standard f, IsDescription standard Q x := by
  simp only [effectElements, List.flatten_cons, List.flatten_nil, List.append_nil,
    List.forall_mem_append]
  exact ⟨isDescription_optional (by decide) _, isDescription_optional (by decide) _,
    isDescription_ite (by decide) "false" f.isUntested⟩

theorem isDescription_field (f : Field) :
    IsDescription standard (f.encode? = some []) (fieldElement standard f) := by
  refine isDescription_group (by decide) (List.cons_ne_nil _ _) ?_
  simp only [widthElements, accessElements, List.flatten_cons, List.flatten_nil, List.append_nil,
    List.forall_mem_append]
  refine ⟨isDescription_names _ _ _, isDescription_presence _, ?_, ?_, ?_, ?_, ?_, ?_, ?_⟩
  · exact List.forall_mem_singleton.2 (isDescription_leaf (by decide) _)
  · intro x hx
    obtain ⟨reset, _, rfl⟩ := Option.map_eq_some_iff.1 (Option.mem_toList.1 hx)
    exact isDescription_reset reset
  · exact List.forall_mem_singleton.2 (isDescription_leaf (by decide) _)
  · exact isDescription_ite (by decide) "true" f.isVolatile
  · exact isDescription_optional (by decide) _
  · intro x hx
    obtain ⟨values, hvalues, rfl⟩ := Option.map_eq_some_iff.1 (Option.mem_toList.1 hx)
    exact (isDescription_enumeratedValues values).mono fun hempty => by rw [hvalues, hempty]
  · exact isDescription_effects f

/-! The elements of nodes. -/

variable {options : WalkOptions}

/-- A field of a node that a walk meets has a list of values without any. -/
def HasEmptyValues (options : WalkOptions) (n : Node) : Prop :=
  ∃ f ∈ n.metFields options, f.encode? = some []

theorem isDescription_nodeNames (n : Node) :
    ∀ x ∈ nodeNameElements standard n, IsDescription standard Q x :=
  isDescription_names n.name n.displayName? n.desc?

theorem isDescription_register (n : Node) :
    IsDescription standard (HasEmptyValues options n) (registerElement standard options n) := by
  refine isDescription_group (by decide) (List.cons_ne_nil _ _) ?_
  simp only [List.flatten_cons, List.flatten_nil, List.append_nil, List.forall_mem_append]
  refine ⟨isDescription_nodeNames n, isDescription_presence _, isDescription_dimensions n,
    ?_, ?_, ?_⟩
  · exact List.forall_mem_singleton.2 (isDescription_leaf (by decide) _)
  · exact List.forall_mem_singleton.2 (isDescription_leaf (by decide) _)
  · intro x hx
    obtain ⟨f, hf, rfl⟩ := List.mem_map.1 hx
    exact (isDescription_field f).mono fun hempty => ⟨f, hf, hempty⟩

theorem isDescription_registerFile (n : Node) {inside : List Xml}
    (hinside : ∀ x ∈ inside, IsDescription standard Q x) :
    IsDescription standard Q (registerFileElement standard n inside) := by
  refine isDescription_group (by decide) (List.cons_ne_nil _ _) ?_
  simp only [List.flatten_cons, List.flatten_nil, List.append_nil, List.forall_mem_append]
  refine ⟨isDescription_nodeNames n, isDescription_presence _, isDescription_dimensions n,
    ?_, ?_, hinside⟩
  · exact List.forall_mem_singleton.2 (isDescription_leaf (by decide) _)
  · exact List.forall_mem_singleton.2 (isDescription_leaf (by decide) _)

theorem isDescription_memory (n : Node) :
    ∀ x ∈ memoryElements standard n, IsDescription standard Q x := by
  unfold memoryElements
  split
  · exact List.forall_mem_cons.2 ⟨isDescription_leaf (by decide) "memory",
      isDescription_optional (by decide) _⟩
  · exact fun x hx => absurd hx List.not_mem_nil

theorem isDescription_addressBlock (n : Node) (address : Nat) (busWidth : Option Nat)
    {inside : List Xml} (hinside : ∀ x ∈ inside, IsDescription standard Q x) :
    IsDescription standard Q (addressBlockElement standard n address busWidth inside) := by
  refine isDescription_group (by decide) (List.cons_ne_nil _ _) ?_
  simp only [List.flatten_cons, List.flatten_nil, List.append_nil, List.forall_mem_append]
  refine ⟨isDescription_nodeNames n, isDescription_presence _, ?_, ?_, ?_,
    isDescription_memory n, hinside⟩
  all_goals exact List.forall_mem_singleton.2 (isDescription_leaf (by decide) _)

/-- What is visited from a child on is visited below its parent. -/
theorem isDescription_below {n : Node}
    (h : ∀ c ∈ n.children, ∀ x ∈ childElements standard options c,
      IsDescription standard (∃ m ∈ c.visited options.skipAbsent, HasEmptyValues options m) x) :
    ∀ x ∈ n.children.flatMap (childElements standard options),
      IsDescription standard (∃ m ∈ n.visited options.skipAbsent, HasEmptyValues options m) x := by
  intro x hx
  obtain ⟨c, hc, hx⟩ := List.mem_flatMap.1 hx
  have hmet : c.isSkipped options = false := by
    rw [childElements_eq] at hx
    split at hx
    case isTrue => cases hx
    case isFalse hmet => exact Bool.eq_false_iff.2 hmet
  refine (h c hc x hx).mono ?_
  rintro ⟨m, hm, hempty⟩
  exact ⟨m, Node.mem_visited_of_below (Node.mem_visitedBelow_iff.2 ⟨c, hc, hmet, hm⟩), hempty⟩

theorem isDescription_child (n : Node) : ∀ x ∈ childElements standard options n,
    IsDescription standard (∃ m ∈ n.visited options.skipAbsent, HasEmptyValues options m) x := by
  induction n using Node.induction with
  | step n ih =>
    intro x hx
    rw [childElements_eq] at hx
    split at hx
    case isTrue => cases hx
    case isFalse =>
      cases hkind : n.kind with
      | addrmap | regfile =>
        rw [hkind] at hx
        rw [List.mem_singleton.1 hx]
        exact isDescription_registerFile n (isDescription_below ih)
      | reg =>
        simp only [hkind] at hx
        split at hx
        case isTrue =>
          rw [List.mem_singleton.1 hx]
          exact (isDescription_register n).mono fun hempty =>
            ⟨n, Node.mem_visited_self _ n, hempty⟩
        case isFalse => cases hx
      | mem =>
        rw [hkind] at hx
        cases hx

theorem isDescription_block (e : Element) :
    IsDescription standard (∃ m ∈ e.node.visited options.skipAbsent, HasEmptyValues options m)
      (blockElement standard options e) :=
  isDescription_addressBlock e.node e.address _ (isDescription_below fun c _ =>
    isDescription_child c)

theorem isDescription_blocks (top : Node) (explosion : Explosion) :
    ∀ e ∈ blocks options top explosion, IsDescription standard
      (∃ m ∈ top.visited options.skipAbsent, HasEmptyValues options m)
      (blockElement standard options e) := by
  intro e he
  cases explosion with
  | wrap =>
    obtain rfl := List.mem_singleton.1 he
    exact isDescription_block (.top top)
  | explode =>
    refine (isDescription_block e).mono ?_
    rintro ⟨m, hm, hempty⟩
    exact ⟨m, Node.mem_visited_of_below (Element.mem_visitedBelow_of_child he hm), hempty⟩

theorem isDescription_memoryMap (top : Node) :
    IsDescription standard (∃ m ∈ top.visited options.skipAbsent, HasEmptyValues options m)
      (memoryMapElement standard options top) := by
  have hnames (explosion : Explosion) :
      mapNameElements standard top explosion ≠ [] ∧
        ∀ x ∈ mapNameElements standard top explosion, IsDescription standard
          (∃ m ∈ top.visited options.skipAbsent, HasEmptyValues options m) x := by
    cases explosion with
    | wrap =>
      exact ⟨List.cons_ne_nil _ _,
        List.forall_mem_singleton.2 (isDescription_leaf (by decide) _)⟩
    | explode => exact ⟨List.cons_ne_nil _ _, isDescription_nodeNames top⟩
  obtain ⟨hne, hnames⟩ := hnames (.decide top)
  refine isDescription_group (by decide) (List.append_ne_nil_of_left_ne_nil hne _)
    (List.forall_mem_append.2 ⟨hnames, List.forall_mem_map.2 (isDescription_blocks top _)⟩)

theorem isDescription_component {options : IpxactOptions} (top : String) {memoryMap : Xml}
    (h : IsDescription options.standard Q memoryMap) :
    IsDescription options.standard Q (component options top memoryMap) := by
  have hplain : (component options top memoryMap).IsPlain := by
    refine ⟨isName_tag (by decide), List.forall_mem_singleton.2 ?_, .inl rfl⟩
    cases options.standard <;> decide
  refine .of_children ⟨hplain, .inl (iff_of_false Bool.false_ne_true (List.cons_ne_nil _ _))⟩ ?_
  refine List.forall_mem_cons.2 ⟨isDescription_leaf (by decide) options.vendor, ?_⟩
  refine List.forall_mem_cons.2 ⟨isDescription_leaf (by decide) options.library, ?_⟩
  refine List.forall_mem_cons.2 ⟨isDescription_leaf (by decide) top, ?_⟩
  refine List.forall_mem_cons.2 ⟨isDescription_leaf (by decide) options.version, ?_⟩
  exact List.forall_mem_singleton.2 (isDescription_group (by decide) (List.cons_ne_nil _ _)
    (List.forall_mem_singleton.2 h))

/-- The document that an export writes is read back as the tree that it has built, with all
names, attributes, texts and the order of elements. Each element of the tree has a text or
other elements in it and not both, except where a field that is met has a list of values
without any: the element of such a list has neither. -/
theorem export_roundTrips (options : IpxactOptions) {top : Node} {destination : Path}
    {a : Artifact} {s : Session (List OpenElement)}
    (h : (emitter options).produce top destination = (.ok a, s)) :
    ∃ built : OpenElement, s.state = [built] ∧
      let tree := component options top.name built.close
      a = .text tree.render ∧ Xml.read? tree.render = some tree ∧
        ∀ x ∈ tree.elements, x.IsFilled ∨
          (x = groupElement options.standard "enumeratedValues" [] ∧
            ∃ m ∈ top.visited options.skipAbsent,
              ∃ f ∈ m.metFields { skipAbsent := options.skipAbsent }, f.encode? = some []) := by
  obtain ⟨built, hstate, hclose, hartifact, _⟩ := state_and_render_of_produce h
  have htree := isDescription_component top.name (hclose ▸ isDescription_memoryMap top)
  exact ⟨built, hstate, hartifact, Xml.read?_render fun x hx => (htree x hx).plain,
    fun x hx => (htree x hx).filled⟩

/-- A register with a field whose list of values is empty. -/
def emptyListMap : Node :=
  let field : Field := { name := "en", lsb := 0, msb := 0 }
  (Node.addrmap "chip").addChild
    ((Node.reg "ctrl").addField (field.withProperty "encode" (.encode [])))

/-- The list has neither a text nor other elements in it. -/
theorem export_leaves_list_empty :
    ∃ (tree : Xml) (s : Session (List OpenElement)),
      (emitter {}).produce emptyListMap ⟨"chip.xml"⟩ = (.ok (.text tree.render), s) ∧
        ∃ built : OpenElement, s.state = [built] ∧ tree = component {} "chip" built.close ∧
          ∃ x ∈ tree.elements, x.name = "ipxact:enumeratedValues" ∧ ¬ x.IsFilled := by
  have hok : ((emitter {}).produce emptyListMap ⟨"chip.xml"⟩).1.isOk = true := by decide +kernel
  obtain ⟨a, s, hproduce, _⟩ := (emitter {}).exists_produce_eq_ok hok
  obtain ⟨built, hstate, hclose, rfl, _⟩ := state_and_render_of_produce hproduce
  refine ⟨_, s, hproduce, built, hstate, rfl, ?_⟩
  rw [hclose]
  decide +kernel

/-- A map with signs of markup, white space at both ends and no characters in its texts. -/
def markupMap : Node :=
  let top := (Node.addrmap "a<b>").withProperty "name" (.text "")
  let ctrl := (Node.reg "ctrl").withProperty "desc" (.text " &lt;\n</ipxact:name>\t")
  top.addChild (ctrl.addField { name := "en", lsb := 0, msb := 0 })

/-- All of them are read back, and no element is without a text and others in it. -/
theorem export_roundTrips_of_markup :
    ∃ (tree : Xml) (s : Session (List OpenElement)),
      (emitter { vendor := "" }).produce markupMap ⟨"chip.xml"⟩ = (.ok (.text tree.render), s) ∧
        Xml.read? tree.render = some tree ∧ (∀ x ∈ tree.elements, x.IsFilled) ∧
        ["", "a<b>", " &lt;\n</ipxact:name>\t"] ⊆ tree.elements.filterMap Xml.text := by
  have hok : ((emitter { vendor := "" }).produce markupMap ⟨"chip.xml"⟩).1.isOk = true := by
    decide +kernel
  obtain ⟨a, s, hproduce, _⟩ := (emitter { vendor := "" }).exists_produce_eq_ok hok
  obtain ⟨built, hstate, rfl, hread, hfilled⟩ := export_roundTrips { vendor := "" } hproduce
  have hvalues : ∀ m ∈ markupMap.visited false, ∀ f ∈ m.metFields {}, f.encode? ≠ some [] := by
    decide +kernel
  refine ⟨_, s, hproduce, hread, fun x hx => ?_, ?_⟩
  · rcases hfilled x hx with h | ⟨_, m, hm, f, hf, hempty⟩
    · exact h
    · exact absurd hempty (hvalues m hm f hf)
  · obtain ⟨same, hsame, hclose, _, _⟩ := state_and_render_of_produce hproduce
    obtain rfl : built = same := (List.cons.inj (hstate.symm.trans hsame)).1
    rw [hclose]
    decide +kernel

end Ipxact

end RegisterMap
