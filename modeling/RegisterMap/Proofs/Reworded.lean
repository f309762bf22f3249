import Mathlib.Data.List.Forall2
import RegisterMap.Proofs.Valid

/-!
A map that says the same in other words: all names, display names and descriptions are
replaced by others, and the rest stays as it is. Only messages can tell the two maps apart
before an output is written: the same invariants hold of them, and a walk meets the same
elements at the same addresses.
-/

namespace RegisterMap

variable (f : String → String)

/-! Properties. -/

def EnumeratedValue.reworded (v : EnumeratedValue) : EnumeratedValue :=
  { v with name := f v.name, displayName := v.displayName.map f, desc := v.desc.map f }

/-- A value in other words. Of the texts only display names and descriptions are for a
reader; the others are words of the format. -/
def PropertyValue.reworded (key : String) : PropertyValue → PropertyValue
  | .text s => .text (if key = "name" ∨ key = "desc" then f s else s)
  | .encode values => .encode (values.map (EnumeratedValue.reworded f))
  | .bool b => .bool b
  | .int n => .int n

namespace Properties

def reworded (p : Properties) : Properties :=
  ⟨p.entries.map fun entry => (entry.1, entry.2.reworded f entry.1)⟩

theorem get?_reworded (p : Properties) (key : String) :
    (p.reworded f).get? key = (p.get? key).map (PropertyValue.reworded f key) := by
  unfold get? reworded
  induction p.entries with
  | nil => rfl
  | cons entry rest ih =>
    rw [List.map_cons, List.lookup_cons, List.lookup_cons, ih]
    by_cases h : key = entry.1
    · simp [h]
    · simp [beq_eq_false_iff_ne.2 h]

/-- A property that a reader is told. -/
theorem text?_reworded (p : Properties) {key : String} (h : key = "name" ∨ key = "desc") :
    (p.reworded f).text? key = (p.text? key).map f := by
  unfold text?
  rw [get?_reworded]
  rcases p.get? key with _ | value
  · rfl
  · cases value <;> simp [PropertyValue.reworded, h]

@[simp]
theorem int?_reworded (p : Properties) (key : String) :
    (p.reworded f).int? key = p.int? key := by
  unfold int?
  rw [get?_reworded]
  rcases p.get? key with _ | value
  · rfl
  · cases value <;> rfl

@[simp]
theorem boolOr_reworded (p : Properties) (key : String) (default : Bool) :
    (p.reworded f).boolOr key default = p.boolOr key default := by
  unfold boolOr
  rw [get?_reworded]
  rcases p.get? key with _ | value
  · rfl
  · cases value <;> rfl

theorem encode?_reworded (p : Properties) :
    (p.reworded f).encode? = p.encode?.map (List.map (EnumeratedValue.reworded f)) := by
  unfold encode?
  rw [get?_reworded]
  rcases p.get? "encode" with _ | value
  · rfl
  · cases value <;> rfl

variable {f}

/-- Words of the format stay what they are. -/
theorem checkWord_reworded {α : Type} {ofWord? : String → Option α} {p : Properties}
    {path key : String} (hkey : ¬ (key = "name" ∨ key = "desc"))
    (h : checkWord ofWord? p path key = .ok ()) (path' : String) :
    checkWord ofWord? (p.reworded f) path' key = .ok () := by
  unfold checkWord parsed at h ⊢
  rw [get?_reworded]
  generalize p.get? key = entry at h ⊢
  rcases entry with _ | value
  · rfl
  · cases value with
    | text s =>
      simp only [PropertyValue.reworded, hkey, if_false, Option.map_some] at h ⊢
      cases hword : ofWord? s with
      | none => simp [hword] at h
      | some a => rfl
    | bool b => cases h
    | int n => cases h
    | encode values => cases h

theorem checkWidth_reworded {p : Properties} {path key : String}
    (h : checkWidth p path key = .ok ()) (path' : String) :
    checkWidth (p.reworded f) path' key = .ok () := by
  unfold checkWidth at h ⊢
  rw [int?_reworded]
  generalize p.int? key = entry at h ⊢
  rcases entry with _ | width
  · rfl
  · simp only at h ⊢
    split at h
    · cases h
    · next hwidth => rw [if_neg hwidth]

theorem checkRegWidth_reworded {p : Properties} {path : String}
    (h : checkRegWidth p path = .ok ()) (path' : String) :
    checkRegWidth (p.reworded f) path' = .ok () := by
  unfold checkRegWidth at h ⊢
  rw [int?_reworded]
  simp only at h ⊢
  split at h
  · cases h
  · next hwidth => rw [if_neg hwidth]

end Properties

/-! Fields and nodes. -/

def Field.reworded (field : Field) : Field :=
  { field with name := f field.name, properties := field.properties.reworded f }

namespace Node

mutual

/-- A node, and all below it, in other words. -/
def reworded (f : String → String) : Node → Node
  | n@{ name, properties, children, fields, .. } =>
    { n with
      name := f name, properties := properties.reworded f, children := rewordedAll f children
      fields := fields.map (Field.reworded f) }

def rewordedAll (f : String → String) : List Node → List Node
  | [] => []
  | child :: rest => child.reworded f :: rewordedAll f rest

end

theorem rewordedAll_eq (nodes : List Node) : rewordedAll f nodes = nodes.map (reworded f) := by
  induction nodes with
  | nil => rfl
  | cons child rest ih => rw [rewordedAll, ih, List.map_cons]

theorem reworded_eq (n : Node) :
    n.reworded f = { n with
      name := f n.name, properties := n.properties.reworded f
      children := n.children.map (reworded f), fields := n.fields.map (Field.reworded f) } := by
  cases n
  rw [reworded, rewordedAll_eq]

@[simp]
theorem kind_reworded (n : Node) : (n.reworded f).kind = n.kind := by
  rw [reworded_eq]

@[simp]
theorem offset_reworded (n : Node) : (n.reworded f).offset = n.offset := by
  rw [reworded_eq]

@[simp]
theorem array_reworded (n : Node) : (n.reworded f).array = n.array := by
  rw [reworded_eq]

@[simp]
theorem properties_reworded (n : Node) :
    (n.reworded f).properties = n.properties.reworded f := by
  rw [reworded_eq]

@[simp]
theorem children_reworded (n : Node) :
    (n.reworded f).children = n.children.map (reworded f) := by
  rw [reworded_eq]

@[simp]
theorem fields_reworded (n : Node) :
    (n.reworded f).fields = n.fields.map (Field.reworded f) := by
  rw [reworded_eq]

theorem displayName?_reworded (n : Node) :
    (n.reworded f).displayName? = n.displayName?.map f := by
  rw [displayName?, properties_reworded, Properties.text?_reworded f _ (Or.inl rfl)]
  rfl

theorem desc?_reworded (n : Node) : (n.reworded f).desc? = n.desc?.map f := by
  rw [desc?, properties_reworded, Properties.text?_reworded f _ (Or.inr rfl)]
  rfl

@[simp]
theorem isPresent_reworded (n : Node) : (n.reworded f).isPresent = n.isPresent := by
  simp [isPresent]

@[simp]
theorem regWidth_reworded (n : Node) : (n.reworded f).regWidth = n.regWidth := by
  simp [regWidth]

@[simp]
theorem memEntries?_reworded (n : Node) : (n.reworded f).memEntries? = n.memEntries? := by
  simp [memEntries?]

@[simp]
theorem memWidth?_reworded (n : Node) : (n.reworded f).memWidth? = n.memWidth? := by
  simp [memWidth?]

@[simp]
theorem strideCheck_reworded (n : Node) : (n.reworded f).strideCheck = n.strideCheck := by
  simp [strideCheck]

@[simp]
theorem metShape?_reworded (n : Node) (options : WalkOptions) :
    (n.reworded f).metShape? options = n.metShape? options := by
  simp [metShape?]

@[simp]
theorem metCount_reworded (n : Node) (options : WalkOptions) :
    (n.reworded f).metCount options = n.metCount options := by
  simp [metCount]

theorem metFields_reworded (n : Node) (options : WalkOptions) :
    (n.reworded f).metFields options = (n.metFields options).map (Field.reworded f) := by
  have hpresent (field : Field) : (field.reworded f).isPresent = field.isPresent := by
    simp [Field.isPresent, Field.reworded]
  rw [metFields, metFields, fields_reworded, List.filter_map]
  congr 1
  exact List.filter_congr fun field _ => by simp [hpresent]

/-! A valid map stays valid. -/

variable {f}

theorem check_reworded {field : Field} {path : String} {width : Nat}
    (h : field.check path width = .ok ()) (path' : String) :
    (field.reworded f).check path' width = .ok () := by
  obtain ⟨hrange, hwidth⟩ := Field.check_eq_ok h
  have hfits : ¬ (field.msb < field.lsb ∨ width ≤ field.msb) := by omega
  unfold Field.check at h ⊢
  rw [if_neg hfits] at h
  simp only [Except.andThen_eq_ok_iff] at h
  obtain ⟨hsoftware, hhardware, hread, hwrite⟩ := h
  have hsame : ¬ ((field.reworded f).msb < (field.reworded f).lsb ∨
    width ≤ (field.reworded f).msb) := hfits
  rw [if_neg hsame]
  simp only [Except.andThen_eq_ok_iff]
  exact ⟨Properties.checkWord_reworded (by decide) hsoftware _,
    Properties.checkWord_reworded (by decide) hhardware _,
    Properties.checkWord_reworded (by decide) hread _,
    Properties.checkWord_reworded (by decide) hwrite _⟩

theorem checkFields_reworded {fields : List Field} {path : String} {width : Nat}
    (h : checkFields path width fields = .ok ()) (path' : String) :
    checkFields path' width (fields.map (Field.reworded f)) = .ok () := by
  induction fields with
  | nil => rfl
  | cons field rest ih =>
    rw [checkFields, Except.andThen_eq_ok_iff] at h
    rw [List.map_cons, checkFields, Except.andThen_eq_ok_iff]
    exact ⟨check_reworded h.1 path', ih h.2⟩

theorem checkRegister_reworded {n : Node} {path : String} (h : n.checkRegister path = .ok ())
    (path' : String) : (n.reworded f).checkRegister path' = .ok () := by
  obtain ⟨hchildren, hregWidth, haccessWidth, hfields, hapart⟩ := checkRegister_eq_ok_iff.1 h
  rw [checkRegister_eq_ok_iff]
  refine ⟨by simp [hchildren], ?_, ?_, ?_, ?_⟩
  · rw [properties_reworded]
    exact Properties.checkRegWidth_reworded hregWidth path'
  · rw [properties_reworded]
    exact Properties.checkWidth_reworded haccessWidth path'
  · rw [regWidth_reworded, fields_reworded]
    exact checkFields_reworded hfields path'
  · rw [fields_reworded]
    exact List.pairwise_map.2 hapart

theorem checkMemory_reworded {n : Node} {path : String} (h : n.checkMemory path = .ok ())
    (path' : String) : (n.reworded f).checkMemory path' = .ok () := by
  obtain ⟨hchildren, hfields, hwidth, haccess⟩ := checkMemory_eq_ok_iff.1 h
  rw [checkMemory_eq_ok_iff, properties_reworded]
  exact ⟨by simp [hchildren], by simp [hfields], Properties.checkWidth_reworded hwidth path',
    Properties.checkWord_reworded (by decide) haccess path'⟩

theorem checkArray_reworded {n : Node} {path : String} (h : n.checkArray path = .ok ())
    (path' : String) : (n.reworded f).checkArray path' = .ok () := by
  unfold checkArray at h ⊢
  rw [array_reworded]
  generalize n.array = array at h ⊢
  rcases array with _ | a
  · rfl
  · simp only at h ⊢
    split at h
    · next hvalid => rw [if_pos hvalid]
    · cases h

theorem checkNoFields_reworded {n : Node} {path : String} (h : n.checkNoFields path = .ok ())
    (path' : String) : (n.reworded f).checkNoFields path' = .ok () := by
  unfold checkNoFields at h ⊢
  rw [fields_reworded]
  cases hfields : n.fields with
  | nil => rfl
  | cons field rest => simp [hfields] at h

theorem validateAt_reworded (n : Node) : ∀ {path : String}, n.validateAt path = .ok () →
    ∀ path', (n.reworded f).validateAt path' = .ok () := by
  induction n using Node.induction with
  | step n ih =>
    intro path h path'
    rw [validateAt_eq, Except.andThen_eq_ok_iff] at h
    obtain ⟨harray, hkind⟩ := h
    have hcontainer (h : n.checkNoFields path = .ok () ∧ validateAll path n.children = .ok ()) :
        (n.reworded f).checkNoFields path' = .ok () ∧
          validateAll path' (n.reworded f).children = .ok () := by
      refine ⟨checkNoFields_reworded h.1 path', validateAll_eq_ok_iff.2 ?_⟩
      rw [children_reworded]
      exact List.forall_mem_map.2 fun c hc => ih c hc (validateAll_eq_ok_iff.1 h.2 c hc) _
    rw [validateAt_eq, Except.andThen_eq_ok_iff, kind_reworded]
    refine ⟨checkArray_reworded harray path', ?_⟩
    cases hn : n.kind with
    | addrmap =>
      rw [hn, Except.andThen_eq_ok_iff] at hkind
      exact Except.andThen_eq_ok_iff.2 (hcontainer hkind)
    | regfile =>
      rw [hn, Except.andThen_eq_ok_iff] at hkind
      exact Except.andThen_eq_ok_iff.2 (hcontainer hkind)
    | reg =>
      rw [hn] at hkind
      exact checkRegister_reworded hkind path'
    | mem =>
      rw [hn] at hkind
      exact checkMemory_reworded hkind path'

theorem validate_reworded {n : Node} (h : n.validate = .ok ()) :
    (n.reworded f).validate = .ok () :=
  validateAt_reworded n h _

theorem IsValid.reworded {n : Node} (h : n.IsValid) : (n.reworded f).IsValid := by
  obtain ⟨path, hvalid⟩ := h
  exact ⟨path, validateAt_reworded n hvalid path⟩

/-! Sizes. -/

theorem extent?_reworded {nodes : List Node} (h : ∀ c ∈ nodes, (c.reworded f).size? = c.size?) :
    extent? (nodes.map (reworded f)) = extent? nodes := by
  induction nodes with
  | nil => rfl
  | cons child rest ih =>
    rw [List.map_cons, extent?, extent?, h child List.mem_cons_self, array_reworded,
      offset_reworded, ih fun c hc => h c (List.mem_cons_of_mem child hc)]

@[simp]
theorem size?_reworded (n : Node) : (n.reworded f).size? = n.size? := by
  induction n using Node.induction with
  | step n ih =>
    have hextent := extent?_reworded (f := f) ih
    rw [reworded_eq]
    cases n with
    | mk name kind offset size array properties children fields source =>
      cases size with
      | some given => simp [size?]
      | none =>
        cases kind with
        | addrmap => simpa [size?] using hextent
        | regfile => simpa [size?] using hextent
        | reg => simp [size?, regWidth]
        | mem => simp [size?, memEntries?, memWidth, memWidth?]

end Node

/-! Elements. -/

namespace Element

/-- The same element of a walk, in other words. -/
structure Retold (f : String → String) (e e' : Element) : Prop where
  node_eq : e'.node = e.node.reworded f
  address_eq : e'.address = e.address
  parentAddress_eq : e'.parentAddress = e.parentAddress
  index_eq : e'.index = e.index

variable {f} {options : WalkOptions} {e e' : Element}

theorem retold_top (n : Node) : Retold f (.top n) (.top (n.reworded f)) :=
  ⟨rfl, n.offset_reworded f, rfl, rfl⟩

theorem Retold.nth (h : Retold f e e') (child : Node) (number : Nat) :
    Retold f (e.nth options child number) (e'.nth options (child.reworded f) number) := by
  unfold Element.nth
  rw [Node.metShape?_reworded]
  cases child.metShape? options with
  | none => exact ⟨rfl, by simp [whole, h.address_eq], h.address_eq, rfl⟩
  | some shape => exact ⟨rfl, by simp [item, h.address_eq], h.address_eq, rfl⟩

theorem Retold.ofChild (h : Retold f e e') (child : Node) :
    List.Forall₂ (Retold f) (e.ofChild options child)
      (e'.ofChild options (child.reworded f)) := by
  rw [Element.ofChild, Element.ofChild, Node.metCount_reworded, List.forall₂_map_left_iff,
    List.forall₂_map_right_iff, List.forall₂_same]
  exact fun number _ => h.nth child number

theorem Retold.children (h : Retold f e e') :
    List.Forall₂ (Retold f) (e.children options) (e'.children options) := by
  rw [Element.children, Element.children, h.node_eq, Node.children_reworded, List.flatMap_map]
  induction e.node.children with
  | nil => exact .nil
  | cons child rest ih =>
    rw [List.flatMap_cons, List.flatMap_cons]
    exact List.rel_append (h.ofChild child) ih

/-- Children have addresses whatever they are called. -/
theorem Retold.all_reaches (h : Retold f e e') :
    e'.node.children.all (e'.reaches options) = e.node.children.all (e.reaches options) := by
  rw [h.node_eq, Node.children_reworded, List.all_map]
  congr 1
  funext child
  simp [reaches, h.address_eq]

end Element

end RegisterMap
