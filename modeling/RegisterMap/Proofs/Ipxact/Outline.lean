import RegisterMap.Proofs.Ipxact.Read

/-!
The outline of a memory map: the elements that stand for parts of a map, each with the
names of those around it and the dimensions that are given in it. All other elements say
something about one of these.
-/

namespace RegisterMap.Ipxact

/-- What an element of a memory map can stand for. -/
inductive Role where
  | addressBlock
  | registerFile
  | register
  | field
deriving DecidableEq, Repr

namespace Role

def word : Role → String
  | addressBlock => "addressBlock"
  | registerFile => "registerFile"
  | register => "register"
  | field => "field"

def all : List Role := [addressBlock, registerFile, register, field]

def ofWord? (s : String) : Option Role := all.find? fun role => role.word == s

/-- The role of the elements with a full name. -/
def ofTag? (standard : IpxactStandard) (name : String) : Option Role :=
  all.find? fun role => tag standard role.word == name

@[simp]
theorem ofTag?_tag (standard : IpxactStandard) (name : String) :
    ofTag? standard (tag standard name) = ofWord? name := by
  unfold ofTag? ofWord?
  congr 1
  funext role
  rw [Bool.eq_iff_iff, beq_iff_eq, beq_iff_eq, tag_inj]

end Role

/-- An element that stands for a part of a map. -/
structure Part where
  role : Role
  path : List String
  dimensions : List Nat := []
deriving DecidableEq, Repr

variable (standard : IpxactStandard)

mutual

/-- The parts of a map from an element downwards, below the names around it. -/
def partsOf (path : List String) : Xml → List Part
  | { name, children, .. } =>
    match Role.ofTag? standard name with
    | some role =>
      let inner := path ++ [textOf standard "name" children]
      ⟨role, inner, dimensionsOf standard children⟩ :: partsIn inner children
    | none => partsIn path children

def partsIn (path : List String) : List Xml → List Part
  | [] => []
  | x :: rest => partsOf path x ++ partsIn path rest

end

theorem partsIn_eq (path : List String) (elements : List Xml) :
    partsIn standard path elements = elements.flatMap (partsOf standard path) := by
  induction elements with
  | nil => simp [partsIn]
  | cons x rest ih => rw [partsIn, ih, List.flatMap_cons]

variable {standard : IpxactStandard}

@[simp]
theorem partsIn_nil (path : List String) : partsIn standard path [] = [] := by
  rw [partsIn_eq, List.flatMap_nil]

theorem partsIn_append (path : List String) (x y : List Xml) :
    partsIn standard path (x ++ y) = partsIn standard path x ++ partsIn standard path y := by
  simp only [partsIn_eq, List.flatMap_append]

theorem partsIn_flatMap {α : Type} (items : List α) (f : α → List Xml) (path : List String) :
    partsIn standard path (items.flatMap f) =
      items.flatMap fun a => partsIn standard path (f a) := by
  simp only [partsIn_eq, List.flatMap_assoc]

theorem partsOf_group_of_none {name : String} (h : Role.ofWord? name = none) (path : List String)
    (children : List Xml) :
    partsOf standard path (groupElement standard name children) =
      partsIn standard path children := by
  simp only [groupElement, partsOf, Role.ofTag?_tag, h]

/-! What is said about a part. -/

/-- Elements that stand for no part and give no dimension. -/
structure Remarks (standard : IpxactStandard) (elements : List Xml) : Prop where
  partsIn_eq_nil : ∀ path, partsIn standard path elements = []
  dimensions_eq_nil : dimensionsOf standard elements = []

theorem dimensionsOf_append (x y : List Xml) :
    dimensionsOf standard (x ++ y) = dimensionsOf standard x ++ dimensionsOf standard y := by
  simp only [dimensionsOf, textsOf_append, List.map_append]

theorem remarks_nil : Remarks standard [] := ⟨partsIn_nil, rfl⟩

theorem Remarks.append {x y : List Xml} (hx : Remarks standard x) (hy : Remarks standard y) :
    Remarks standard (x ++ y) := by
  refine ⟨fun path => ?_, ?_⟩
  · rw [partsIn_append, hx.partsIn_eq_nil, hy.partsIn_eq_nil, List.append_nil]
  · rw [dimensionsOf_append, hx.dimensions_eq_nil, hy.dimensions_eq_nil, List.append_nil]

/-- The first of several lists of elements. -/
theorem Remarks.next {x : List Xml} {rest : List (List Xml)} (hx : Remarks standard x)
    (hrest : Remarks standard rest.flatten) : Remarks standard (x :: rest).flatten :=
  hx.append hrest

theorem Remarks.last {x : List Xml} (hx : Remarks standard x) : Remarks standard [x].flatten := by
  rwa [List.flatten_singleton]

theorem partsOf_leaf {name : String} (h : Role.ofWord? name = none) (text : String)
    (path : List String) : partsOf standard path (leafElement standard name text) = [] := by
  simp only [leafElement, partsOf, Role.ofTag?_tag, h, partsIn]

theorem remarks_leaf {name : String} (hrole : Role.ofWord? name = none) (hdim : name ≠ "dim")
    (text : String) : Remarks standard [leafElement standard name text] := by
  refine ⟨fun path => ?_, by simp [dimensionsOf, hdim]⟩
  rw [partsIn, partsOf_leaf hrole, partsIn_nil, List.append_nil]

theorem remarks_optional {name : String} (hrole : Role.ofWord? name = none)
    (hdim : name ≠ "dim") (text : Option String) :
    Remarks standard (optionalElement standard name text) := by
  cases text with
  | none => exact remarks_nil
  | some text => exact remarks_leaf hrole hdim text

theorem remarks_group {name : String} (hrole : Role.ofWord? name = none) {children : List Xml}
    (h : Remarks standard children) : Remarks standard [groupElement standard name children] := by
  refine ⟨fun path => ?_, by simp [dimensionsOf, textsOf, groupElement]⟩
  rw [partsIn, partsIn_nil, List.append_nil, partsOf_group_of_none hrole, h.partsIn_eq_nil]

theorem remarks_map {α : Type} {items : List α} {x : α → Xml}
    (h : ∀ a ∈ items, Remarks standard [x a]) : Remarks standard (items.map x) := by
  induction items with
  | nil => exact remarks_nil
  | cons item rest ih =>
    exact (h item List.mem_cons_self).append (ih fun a ha => h a (List.mem_cons_of_mem item ha))

theorem remarks_toList {x : Option Xml} (h : ∀ a ∈ x, Remarks standard [a]) :
    Remarks standard x.toList := by
  cases x with
  | none => exact remarks_nil
  | some a => exact h a rfl

theorem remarks_flag {isSet : Prop} [Decidable isSet] {x : List Xml} (h : Remarks standard x) :
    Remarks standard (if isSet then x else []) := by
  split
  · exact h
  · exact remarks_nil

theorem remarks_names (name : String) (displayName desc : Option String) :
    Remarks standard (nameElements standard name displayName desc) :=
  (remarks_leaf (by decide) (by decide) name).append <|
    (remarks_optional (by decide) (by decide) displayName).append <|
      remarks_optional (by decide) (by decide) desc

theorem remarks_presence (isPresent : Bool) :
    Remarks standard (presenceElements standard isPresent) := by
  cases isPresent with
  | true => exact remarks_nil
  | false => exact remarks_leaf (by decide) (by decide) "0"

theorem remarks_memory (n : Node) : Remarks standard (memoryElements standard n) :=
  remarks_flag <| (remarks_leaf (by decide) (by decide) "memory").append <|
    remarks_optional (by decide) (by decide) _

theorem remarks_reset (reset : Nat) : Remarks standard [resetElement standard reset] :=
  remarks_group (by decide) <| remarks_group (by decide) <| remarks_leaf (by decide) (by decide) _

theorem remarks_enumeratedValue (v : EnumeratedValue) :
    Remarks standard [enumeratedValueElement standard v] :=
  remarks_group (by decide) <|
    (remarks_names _ _ _).append <| remarks_leaf (by decide) (by decide) _

theorem remarks_effects (f : Field) : Remarks standard (effectElements standard f) :=
  (remarks_optional (by decide) (by decide) _).next <|
    (remarks_optional (by decide) (by decide) _).next <|
      (remarks_flag (remarks_leaf (by decide) (by decide) _)).last

theorem remarks_access (f : Field) : Remarks standard (accessElements standard f) := by
  refine (remarks_optional (by decide) (by decide) _).next <|
    Remarks.next ?_ (remarks_effects f).last
  apply remarks_toList
  intro x hx
  obtain ⟨values, _, rfl⟩ := Option.map_eq_some_iff.1 hx
  exact remarks_group (by decide) (remarks_map fun v _ => remarks_enumeratedValue v)

theorem remarks_width (f : Field) : Remarks standard (widthElements standard f) :=
  (remarks_leaf (by decide) (by decide) _).next <|
    (remarks_flag (remarks_leaf (by decide) (by decide) _)).next (remarks_access f).last

/-! The elements of a map. -/

/-- An element for a part begins with its name. -/
theorem partsOf_group_of_role {word : String} {role : Role} (h : Role.ofWord? word = some role)
    (name : String) (displayName desc : Option String) (rest : List (List Xml))
    (path : List String) :
    partsOf standard path (groupElement standard word
        (List.flatten (nameElements standard name displayName desc :: rest))) =
      ⟨role, path ++ [name], dimensionsOf standard rest.flatten⟩ ::
        partsIn standard (path ++ [name]) rest.flatten := by
  have hname : textOf standard "name"
      (List.flatten (nameElements standard name displayName desc :: rest)) = name := by
    simp [textOf, nameElements]
  have hdims : dimensionsOf standard
      (List.flatten (nameElements standard name displayName desc :: rest)) =
        dimensionsOf standard rest.flatten := by
    simp [dimensionsOf, nameElements]
  simp only [groupElement, partsOf, Role.ofTag?_tag, h, hname, hdims]
  rw [List.flatten_cons, partsIn_append, (remarks_names _ _ _).partsIn_eq_nil, List.nil_append]

/-- A field has no parts, and is no array. -/
theorem partsOf_field (f : Field) (path : List String) :
    partsOf standard path (fieldElement standard f) = [⟨.field, path ++ [f.name], []⟩] := by
  have hreset : Remarks standard (f.reset?.map (resetElement standard)).toList := by
    apply remarks_toList
    intro x hx
    obtain ⟨reset, _, rfl⟩ := Option.map_eq_some_iff.1 hx
    exact remarks_reset reset
  have hrest : Remarks standard (List.flatten [
      presenceElements standard f.isPresent,
      [leafElement standard "bitOffset" (toString f.lsb)],
      (f.reset?.map (resetElement standard)).toList,
      widthElements standard f]) :=
    (remarks_presence f.isPresent).next <| (remarks_leaf (by decide) (by decide) _).next <|
      hreset.next (remarks_width f).last
  have hrole : Role.ofWord? "field" = some .field := rfl
  rw [fieldElement, partsOf_group_of_role hrole, hrest.partsIn_eq_nil, hrest.dimensions_eq_nil]

theorem partsIn_fields (fields : List Field) (path : List String) :
    partsIn standard path (fields.map (fieldElement standard)) =
      fields.map fun f => ⟨.field, path ++ [f.name], []⟩ := by
  rw [partsIn_eq, List.flatMap_map]
  simp only [partsOf_field]
  rw [List.map_eq_flatMap]

theorem dimensionsOf_dimensions (n : Node) :
    dimensionsOf standard (dimensionElements standard n) =
      (n.array.map (·.dimensions)).getD [] := by
  apply dimensionsOf_eq
  rw [textsOf_dimensions, if_pos rfl]

theorem partsIn_dimensions (n : Node) (path : List String) :
    partsIn standard path (dimensionElements standard n) = [] := by
  rw [partsIn_eq, List.flatMap_eq_nil_iff]
  intro x hx
  obtain ⟨d, _, rfl⟩ := List.mem_map.1 hx
  exact partsOf_leaf (by decide) (toString d) path

/-- A part that can be an array gives its dimensions, and has the parts inside it. -/
theorem partsOf_array {word : String} {role : Role} (h : Role.ofWord? word = some role) (n : Node)
    {offset size inside : List Xml} (hoffset : Remarks standard offset)
    (hsize : Remarks standard size) (hinside : dimensionsOf standard inside = [])
    (path : List String) :
    partsOf standard path (groupElement standard word (List.flatten [
        nodeNameElements standard n,
        presenceElements standard n.isPresent,
        dimensionElements standard n,
        offset,
        size,
        inside])) =
      ⟨role, path ++ [n.name], (n.array.map (·.dimensions)).getD []⟩ ::
        partsIn standard (path ++ [n.name]) inside := by
  have hpresence : Remarks standard (presenceElements standard n.isPresent) := remarks_presence _
  rw [nodeNameElements, partsOf_group_of_role h]
  simp only [List.flatten_cons, List.flatten_nil, List.append_nil, dimensionsOf_append,
    partsIn_append, hpresence.dimensions_eq_nil, dimensionsOf_dimensions,
    hoffset.dimensions_eq_nil, hsize.dimensions_eq_nil, hinside, hpresence.partsIn_eq_nil,
    partsIn_dimensions, hoffset.partsIn_eq_nil, hsize.partsIn_eq_nil, List.nil_append]

theorem partsOf_register (options : WalkOptions) (n : Node) (path : List String) :
    partsOf standard path (registerElement standard options n) =
      ⟨.register, path ++ [n.name], (n.array.map (·.dimensions)).getD []⟩ ::
        (n.metFields options).map fun f => ⟨.field, path ++ [n.name] ++ [f.name], []⟩ := by
  have hfields :
      dimensionsOf standard ((n.metFields options).map (fieldElement standard)) = [] := by
    have hgroups : ∀ x ∈ (n.metFields options).map (fieldElement standard), x.text = none := by
      intro x hx
      obtain ⟨f, _, rfl⟩ := List.mem_map.1 hx
      rfl
    rw [dimensionsOf, textsOf_of_groups hgroups, List.map_nil]
  have hrole : Role.ofWord? "register" = some .register := rfl
  rw [registerElement, partsOf_array hrole n (remarks_leaf (by decide) (by decide) _)
    (remarks_leaf (by decide) (by decide) _) hfields, partsIn_fields]

theorem partsOf_registerFile (n : Node) {inside : List Xml}
    (hinside : dimensionsOf standard inside = []) (path : List String) :
    partsOf standard path (registerFileElement standard n inside) =
      ⟨.registerFile, path ++ [n.name], (n.array.map (·.dimensions)).getD []⟩ ::
        partsIn standard (path ++ [n.name]) inside :=
  partsOf_array rfl n (remarks_leaf (by decide) (by decide) _)
    (remarks_leaf (by decide) (by decide) _) hinside path

/-- An address block is no array. -/
theorem partsOf_addressBlock (n : Node) (address : Nat) (busWidth : Option Nat)
    {inside : List Xml} (hinside : dimensionsOf standard inside = []) (path : List String) :
    partsOf standard path (addressBlockElement standard n address busWidth inside) =
      ⟨.addressBlock, path ++ [n.name], []⟩ :: partsIn standard (path ++ [n.name]) inside := by
  have hrole : Role.ofWord? "addressBlock" = some .addressBlock := rfl
  have hremarks : Remarks standard (List.flatten [
      presenceElements standard n.isPresent,
      [leafElement standard "baseAddress" (Text.hexLiteral address)],
      [leafElement standard "range" (Text.hexLiteral (n.size?.getD 0))],
      [leafElement standard "width" (toString (blockWidth n busWidth))],
      memoryElements standard n]) :=
    (remarks_presence _).next <| (remarks_leaf (by decide) (by decide) _).next <|
      (remarks_leaf (by decide) (by decide) _).next <|
        (remarks_leaf (by decide) (by decide) _).next (remarks_memory n).last
  rw [addressBlockElement, nodeNameElements, partsOf_group_of_role hrole]
  simp only [List.flatten_cons, List.flatten_nil, List.append_nil] at hremarks ⊢
  simp only [← List.append_assoc] at hremarks ⊢
  rw [dimensionsOf_append, partsIn_append, hremarks.dimensions_eq_nil, hremarks.partsIn_eq_nil,
    hinside]
  rfl

end RegisterMap.Ipxact
