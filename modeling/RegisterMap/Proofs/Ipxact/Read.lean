import RegisterMap.Proofs.Ipxact.Build
import RegisterMap.Proofs.Occurrence
import RegisterMap.Proofs.RowMajor
import RegisterMap.Proofs.Text.Number

/-!
Component descriptions read back. The format gives no stride: neighbouring elements
of a register file lie a range apart, those of a register its size. Reading goes
through the elements and takes each register at all of its indices, from the base of
its address block and the offsets in it. What is read from the description of a map
are the registers of its walk that are described, where the walk meets them.
-/

namespace RegisterMap.Ipxact

variable (standard : IpxactStandard)

/-- The texts of the elements with a name. -/
def textsOf (name : String) (elements : List Xml) : List String :=
  elements.filterMap fun x => if x.name = tag standard name then x.text else none

/-- The text of the first element with a name, empty where there is none. -/
def textOf (name : String) (elements : List Xml) : String :=
  (textsOf standard name elements).headD ""

/-- An address or a range. -/
def wordOf (name : String) (elements : List Xml) : Nat :=
  (Text.ofHexLiteral? (textOf standard name elements)).getD 0

/-- The dimensions of an array, none where it is no array. -/
def dimensionsOf (elements : List Xml) : List Nat :=
  (textsOf standard "dim" elements).map Text.ofDecimal

/-- Each element of an array by its instance and its distance from the first. -/
def itemsOf (distance : Nat) (elements : List Xml) : List (Instance × Nat) :=
  let dims := dimensionsOf standard elements
  (List.range dims.prod).map fun linear =>
    ((textOf standard "name" elements, (ArrayShape.unravelWith dims linear).1), linear * distance)

mutual

/-- The registers in an element with their addresses, from the instances around the
element and the address that its offset counts from. -/
def registersOf (path : List Instance) (base : Nat) : Xml → List (List Instance × Nat)
  | { name, children, .. } =>
    if name = tag standard "addressBlock" then
      registersIn (path ++ [(textOf standard "name" children, [])])
        (wordOf standard "baseAddress" children) children
    else if name = tag standard "registerFile" then
      (itemsOf standard (wordOf standard "range" children) children).flatMap fun item =>
        registersIn (path ++ [item.1]) (base + wordOf standard "addressOffset" children + item.2)
          children
    else if name = tag standard "register" then
      (itemsOf standard (Text.ofDecimal (textOf standard "size" children) / 8) children).map
        fun item => (path ++ [item.1], base + wordOf standard "addressOffset" children + item.2)
    else []

def registersIn (path : List Instance) (base : Nat) : List Xml → List (List Instance × Nat)
  | [] => []
  | x :: rest => registersOf path base x ++ registersIn path base rest

end

/-- All registers that a memory map describes. -/
def describedRegisters (memoryMap : Xml) : List (List Instance × Nat) :=
  registersIn standard [] 0 memoryMap.children

theorem registersIn_eq (path : List Instance) (base : Nat) (elements : List Xml) :
    registersIn standard path base elements =
      elements.flatMap (registersOf standard path base) := by
  induction elements with
  | nil => simp [registersIn]
  | cons x rest ih => rw [registersIn, ih, List.flatMap_cons]

theorem registersIn_append (path : List Instance) (base : Nat) (x y : List Xml) :
    registersIn standard path base (x ++ y) =
      registersIn standard path base x ++ registersIn standard path base y := by
  simp only [registersIn_eq, List.flatMap_append]

variable {standard : IpxactStandard}

theorem tag_inj {a b : String} : tag standard a = tag standard b ↔ a = b := by
  unfold tag
  constructor
  · intro h
    have hchars := congrArg String.toList h
    simp only [String.toList_append] at hchars
    exact String.toList_inj.1 (List.append_cancel_left hchars)
  · intro h
    rw [h]

/-! The texts among the elements of a part. -/

@[simp]
theorem textsOf_nil (name : String) : textsOf standard name [] = [] := rfl

@[simp]
theorem textsOf_append (name : String) (x y : List Xml) :
    textsOf standard name (x ++ y) = textsOf standard name x ++ textsOf standard name y :=
  List.filterMap_append

@[simp]
theorem textsOf_leaf_cons (name other text : String) (rest : List Xml) :
    textsOf standard name (leafElement standard other text :: rest) =
      (if other = name then [text] else []) ++ textsOf standard name rest := by
  unfold textsOf leafElement
  by_cases h : other = name <;> simp [h, tag_inj]

@[simp]
theorem textsOf_optional (name other : String) (text : Option String) :
    textsOf standard name (optionalElement standard other text) =
      if other = name then text.toList else [] := by
  cases text with
  | none => simp [optionalElement]
  | some text => simp [optionalElement]

@[simp]
theorem textsOf_dimensions (name : String) (n : Node) :
    textsOf standard name (dimensionElements standard n) =
      if "dim" = name then ((n.array.map (·.dimensions)).getD []).map toString else [] := by
  unfold dimensionElements
  induction (n.array.map (·.dimensions)).getD [] with
  | nil => simp
  | cons d rest ih =>
    rw [List.map_cons, textsOf_leaf_cons, ih]
    split <;> rfl

/-- An element with others inside it has no text. -/
theorem textsOf_of_groups {elements : List Xml} (h : ∀ x ∈ elements, x.text = none)
    (name : String) : textsOf standard name elements = [] := by
  unfold textsOf
  rw [List.filterMap_eq_nil_iff]
  intro x hx
  rw [h x hx, ite_self]

@[simp]
theorem textsOf_presence (name : String) (isPresent : Bool) :
    textsOf standard name (presenceElements standard isPresent) =
      if "isPresent" = name ∧ isPresent = false then ["0"] else [] := by
  cases isPresent <;> simp [presenceElements]

theorem text_childElements {options : WalkOptions} {n : Node} {x : Xml}
    (h : x ∈ childElements standard options n) : x.text = none := by
  rw [childElements_eq] at h
  split at h
  · cases h
  · split at h
    · rw [List.mem_singleton.1 h]
      rfl
    · rw [List.mem_singleton.1 h]
      rfl
    · split at h
      · rw [List.mem_singleton.1 h]
        rfl
      · cases h
    · cases h

/-! What does not hold registers. -/

/-- An element that no register is read from. -/
def IsPlain (standard : IpxactStandard) (x : Xml) : Prop :=
  x.name ≠ tag standard "addressBlock" ∧ x.name ≠ tag standard "registerFile" ∧
    x.name ≠ tag standard "register"

theorem registersIn_of_plain {elements : List Xml} (h : ∀ x ∈ elements, IsPlain standard x)
    (path : List Instance) (base : Nat) : registersIn standard path base elements = [] := by
  rw [registersIn_eq, List.flatMap_eq_nil_iff]
  intro x hx
  obtain ⟨hblock, hfile, hregister⟩ := h x hx
  cases x
  rw [registersOf, if_neg hblock, if_neg hfile, if_neg hregister]

theorem isPlain_leaf {name : String} (hblock : name ≠ "addressBlock")
    (hfile : name ≠ "registerFile") (hregister : name ≠ "register") (text : String) :
    IsPlain standard (leafElement standard name text) :=
  ⟨tag_inj.not.2 hblock, tag_inj.not.2 hfile, tag_inj.not.2 hregister⟩

theorem isPlain_optional {name : String} (hblock : name ≠ "addressBlock")
    (hfile : name ≠ "registerFile") (hregister : name ≠ "register") {text : Option String} {x : Xml}
    (h : x ∈ optionalElement standard name text) : IsPlain standard x := by
  cases text with
  | none => cases h
  | some text =>
    rw [List.mem_singleton.1 h]
    exact isPlain_leaf hblock hfile hregister text

theorem registersIn_leaf_cons {name : String} (hblock : name ≠ "addressBlock")
    (hfile : name ≠ "registerFile") (hregister : name ≠ "register") (text : String)
    (rest : List Xml) (path : List Instance) (base : Nat) :
    registersIn standard path base (leafElement standard name text :: rest) =
      registersIn standard path base rest := by
  have hplain : ∀ x ∈ [leafElement standard name text], IsPlain standard x := by
    intro x hx
    rw [List.mem_singleton.1 hx]
    exact isPlain_leaf hblock hfile hregister text
  rw [← List.singleton_append, registersIn_append, registersIn_of_plain hplain, List.nil_append]

theorem registersIn_nodeNames (n : Node) (path : List Instance) (base : Nat) :
    registersIn standard path base (nodeNameElements standard n) = [] := by
  apply registersIn_of_plain
  intro x hx
  rcases List.mem_cons.1 hx with rfl | hx
  · exact isPlain_leaf (by decide) (by decide) (by decide) n.name
  · rcases List.mem_append.1 hx with hx | hx
    · exact isPlain_optional (by decide) (by decide) (by decide) hx
    · exact isPlain_optional (by decide) (by decide) (by decide) hx

theorem registersIn_presence (isPresent : Bool) (path : List Instance) (base : Nat) :
    registersIn standard path base (presenceElements standard isPresent) = [] := by
  cases isPresent with
  | true => simp [presenceElements, registersIn]
  | false => exact registersIn_leaf_cons (by decide) (by decide) (by decide) "0" [] path base

theorem registersIn_dimensions (n : Node) (path : List Instance) (base : Nat) :
    registersIn standard path base (dimensionElements standard n) = [] := by
  apply registersIn_of_plain
  intro x hx
  obtain ⟨d, _, rfl⟩ := List.mem_map.1 hx
  exact isPlain_leaf (by decide) (by decide) (by decide) (toString d)

theorem registersIn_memory (n : Node) (path : List Instance) (base : Nat) :
    registersIn standard path base (memoryElements standard n) = [] := by
  apply registersIn_of_plain
  intro x hx
  unfold memoryElements at hx
  split at hx
  · rcases List.mem_cons.1 hx with rfl | hx
    · exact isPlain_leaf (by decide) (by decide) (by decide) "memory"
    · exact isPlain_optional (by decide) (by decide) (by decide) hx
  · cases hx

/-! The parts of a map read back. -/

theorem dimensionsOf_eq {elements : List Xml} {dims : List Nat}
    (h : textsOf standard "dim" elements = dims.map toString) :
    dimensionsOf standard elements = dims := by
  have hdecimal (d : Nat) : Text.ofDecimal (toString d) = d := Text.ofDecimal_toString d
  rw [dimensionsOf, h, List.map_map]
  simp only [Function.comp_def, hdecimal, List.map_id']

/-- How far apart the elements of a node lie that are found from a description. -/
theorem itemsOf_eq {n : Node} {elements : List Xml} {distance : Nat} (hvalid : n.IsValid)
    (hname : textOf standard "name" elements = n.name)
    (hdims : textsOf standard "dim" elements =
      ((n.array.map (·.dimensions)).getD []).map toString)
    (hdistance : n.array.isSome → distance = n.elementStride) :
    itemsOf standard distance elements =
      (List.range n.elementCount).map fun linear =>
        ((n.name, n.elementIndex linear), linear * n.elementStride) := by
  unfold itemsOf
  rw [dimensionsOf_eq hdims, hname]
  cases harray : n.array with
  | none => simp [Node.elementCount, Node.elementIndex, harray, ArrayShape.unravelWith]
  | some a =>
    have hcount : n.elementCount = a.dimensions.prod := by
      rw [Node.elementCount, harray]
      exact (hvalid.array_isSound harray).count_eq
    have hindex (linear : Nat) :
        n.elementIndex linear = (ArrayShape.unravelWith a.dimensions linear).1 := by
      rw [Node.elementIndex, harray]
      rfl
    simp only [Option.map_some, Option.getD_some, hcount, hindex, hdistance (by simp [harray])]

theorem registersOf_registerFile {n : Node} (hvalid : n.IsValid) {inside : List Xml}
    (hinside : ∀ x ∈ inside, x.text = none) (path : List Instance) (base : Nat) :
    registersOf standard path base (registerFileElement standard n inside) =
      (List.range n.elementCount).flatMap fun linear =>
        registersIn standard (path ++ [(n.name, n.elementIndex linear)])
          (base + n.offset + linear * n.elementStride) inside := by
  have hgroups (name : String) : textsOf standard name inside = [] :=
    textsOf_of_groups hinside name
  have hrange : n.array.isSome → n.rangeSize?.getD 0 = n.elementStride := by
    unfold Node.rangeSize? Node.elementStride
    cases n.array <;> simp
  rw [registerFileElement, groupElement, registersOf, if_neg (by simp [tag_inj]), if_pos rfl]
  generalize helements : List.flatten _ = elements
  have hname : textOf standard "name" elements = n.name := by
    simp [← helements, textOf, nodeNameElements, nameElements]
  have hdims : textsOf standard "dim" elements =
      ((n.array.map (·.dimensions)).getD []).map toString := by
    simp [← helements, nodeNameElements, nameElements, hgroups]
  have hoffset : wordOf standard "addressOffset" elements = n.offset := by
    simp [← helements, wordOf, textOf, nodeNameElements, nameElements,
      Text.ofHexLiteral?_hexLiteral]
  have hdistance : wordOf standard "range" elements = n.rangeSize?.getD 0 := by
    simp [← helements, wordOf, textOf, nodeNameElements, nameElements,
      Text.ofHexLiteral?_hexLiteral]
  have hregisters (path : List Instance) (base : Nat) :
      registersIn standard path base elements = registersIn standard path base inside := by
    simp [← helements, registersIn_append, registersIn_nodeNames, registersIn_presence,
      registersIn_dimensions, registersIn_leaf_cons]
  rw [itemsOf_eq hvalid hname hdims fun h => hdistance.trans (hrange h), List.flatMap_map]
  simp only [hoffset, hregisters]

theorem registersOf_register {n : Node} (hvalid : n.IsValid)
    (hcontiguous : n.strideCheck = .contiguous) (options : WalkOptions) (path : List Instance)
    (base : Nat) :
    registersOf standard path base (registerElement standard options n) =
      (List.range n.elementCount).map fun linear =>
        (path ++ [(n.name, n.elementIndex linear)],
          base + n.offset + linear * n.elementStride) := by
  have hfields : ∀ x ∈ (n.metFields options).map (fieldElement standard), x.text = none := by
    intro x hx
    obtain ⟨f, _, rfl⟩ := List.mem_map.1 hx
    rfl
  have hgroups (name : String) :
      textsOf standard name ((n.metFields options).map (fieldElement standard)) = [] :=
    textsOf_of_groups hfields name
  have hsize : n.array.isSome → n.regWidth / 8 = n.elementStride := by
    unfold Node.strideCheck at hcontiguous
    unfold Node.elementStride
    cases harray : n.array with
    | none => simp
    | some a =>
      simp only [harray] at hcontiguous
      split at hcontiguous
      case isTrue hstride => simp [hstride]
      case isFalse => split at hcontiguous <;> cases hcontiguous
  rw [registerElement, groupElement, registersOf, if_neg (by simp [tag_inj]),
    if_neg (by simp [tag_inj]), if_pos rfl]
  generalize helements : List.flatten _ = elements
  have hname : textOf standard "name" elements = n.name := by
    simp [← helements, textOf, nodeNameElements, nameElements]
  have hdims : textsOf standard "dim" elements =
      ((n.array.map (·.dimensions)).getD []).map toString := by
    simp [← helements, nodeNameElements, nameElements, hgroups]
  have hoffset : wordOf standard "addressOffset" elements = n.offset := by
    simp [← helements, wordOf, textOf, nodeNameElements, nameElements,
      Text.ofHexLiteral?_hexLiteral]
  have hwidth : textOf standard "size" elements = toString n.regWidth := by
    simp [← helements, textOf, nodeNameElements, nameElements]
  have hdistance : Text.ofDecimal (textOf standard "size" elements) / 8 = n.regWidth / 8 := by
    rw [hwidth, Text.ofDecimal_toString]
  rw [itemsOf_eq hvalid hname hdims fun h => hdistance.trans (hsize h), List.map_map]
  simp only [hoffset, Function.comp_def]

theorem registersOf_addressBlock (n : Node) (address : Nat) (busWidth : Option Nat)
    {inside : List Xml} (path : List Instance) (base : Nat) :
    registersOf standard path base (addressBlockElement standard n address busWidth inside) =
      registersIn standard (path ++ [(n.name, [])]) address inside := by
  rw [addressBlockElement, groupElement, registersOf, if_pos rfl]
  generalize helements : List.flatten _ = elements
  have hname : textOf standard "name" elements = n.name := by
    simp [← helements, textOf, nodeNameElements, nameElements]
  have haddress : wordOf standard "baseAddress" elements = address := by
    simp [← helements, wordOf, textOf, nodeNameElements, nameElements,
      Text.ofHexLiteral?_hexLiteral]
  rw [hname, haddress]
  simp [← helements, registersIn_append, registersIn_nodeNames, registersIn_presence,
    registersIn_memory, registersIn_leaf_cons]

/-- A register that a description has an element for: no array, or one without gaps. -/
def isDescribed (o : Occurrence) : Bool :=
  o.element.node.kind = .reg &&
    o.element.node.array.all fun a => a.stride = o.element.node.regWidth / 8

theorem isDescribed_of_not_register {o : Occurrence} (h : o.element.node.kind ≠ .reg) :
    isDescribed o = false := by
  simp [isDescribed, h]

theorem isDescribed_of_register {o : Occurrence} (h : o.element.node.kind = .reg) :
    isDescribed o = decide (o.element.node.strideCheck = .contiguous) := by
  unfold isDescribed Node.strideCheck
  cases o.element.node.array with
  | none => simp [h]
  | some a =>
    by_cases hstride : a.stride = o.element.node.regWidth / 8
    · simp [h, hstride]
    · by_cases hsparse : o.element.node.regWidth / 8 < a.stride <;> simp [hstride, hsparse]

theorem registersIn_flatMap {α : Type} (items : List α) (f : α → List Xml) (path : List Instance)
    (base : Nat) :
    registersIn standard path base (items.flatMap f) =
      items.flatMap fun a => registersIn standard path base (f a) := by
  simp only [registersIn_eq, List.flatMap_assoc]

/-- A register file holds what its children place, once for each of its elements. -/
theorem registersIn_registerFile {options : WalkOptions} {n : Node} (hvalid : n.IsValid)
    (hmet : n.isSkipped options = false) (hkind : n.kind ≠ .reg) {explosion : Explosion}
    (hchildren : ∀ c ∈ n.children, ∀ o : Occurrence,
      registersIn standard (o.instances id explosion) o.element.address
          (childElements standard options c) = o.placements id explosion isDescribed options c)
    (o : Occurrence) :
    registersIn standard (o.instances id explosion) o.element.address
        [registerFileElement standard n (n.children.flatMap (childElements standard options))] =
      o.placements id explosion isDescribed options n := by
  have hgroups : ∀ x ∈ n.children.flatMap (childElements standard options), x.text = none := by
    intro x hx
    obtain ⟨c, _, hc⟩ := List.mem_flatMap.1 hx
    exact text_childElements hc
  rw [registersIn_eq, List.flatMap_singleton, registersOf_registerFile hvalid hgroups]
  refine (Occurrence.flatMap_ofChild hmet id explosion o fun path address =>
    registersIn standard path address
      (n.children.flatMap (childElements standard options))).symm.trans ?_
  apply List.flatMap_congr
  intro e he
  have hnode : (o.inside e).element.node = n := Element.node_of_mem_ofChild he
  have hinner : isDescribed (o.inside e) = false :=
    isDescribed_of_not_register (by rwa [hnode])
  rw [Occurrence.placements_select _ _ _ hinner, hnode, registersIn_flatMap]
  apply List.flatMap_congr
  intro c hc
  exact hchildren c hc (o.inside e)

/-- A register is read at the places of its elements, unless there are gaps between them. -/
theorem registersIn_register {options : WalkOptions} {n : Node} (hvalid : n.IsValid)
    (hmet : n.isSkipped options = false) (hkind : n.kind = .reg) (explosion : Explosion)
    (o : Occurrence) :
    registersIn standard (o.instances id explosion) o.element.address
        (if n.strideCheck = .contiguous then [registerElement standard options n] else []) =
      o.placements id explosion isDescribed options n := by
  have hselect : ∀ e ∈ o.element.ofChild options.unrolled n,
      ((o.inside e).select isDescribed options.unrolled).map (Occurrence.placement id explosion) =
        if n.strideCheck = .contiguous then [(o.inside e).placement id explosion] else [] := by
    intro e he
    have hnode : (o.inside e).element.node = n := Element.node_of_mem_ofChild he
    have hregister : (o.inside e).element.node.kind = .reg := by rw [hnode, hkind]
    rw [Occurrence.select_of_childless _ (hnode ▸ hvalid.children_of_register hkind),
      isDescribed_of_register hregister, hnode]
    by_cases hcontiguous : n.strideCheck = .contiguous <;> simp [hcontiguous]
  rw [Occurrence.placements, List.flatMap_congr hselect]
  by_cases hcontiguous : n.strideCheck = .contiguous
  · simp only [hcontiguous, if_true]
    rw [registersIn_eq, List.flatMap_singleton, registersOf_register hvalid hcontiguous,
      List.map_eq_flatMap]
    exact (Occurrence.flatMap_ofChild hmet id explosion o fun path address =>
      [(path, address)]).symm
  · simp [hcontiguous, registersIn]

/-- The elements that stand for a node are read as its registers, in every occurrence of
what is around it. -/
theorem registersIn_childElements (options : WalkOptions) (explosion : Explosion) (n : Node) :
    n.IsValid → ∀ o : Occurrence,
      registersIn standard (o.instances id explosion) o.element.address
          (childElements standard options n) =
        o.placements id explosion isDescribed options n := by
  induction n using Node.induction with
  | step n ih =>
    intro hvalid o
    have hchildren := fun c hc => ih c hc (hvalid.child hc)
    rw [childElements_eq]
    cases hmet : n.isSkipped options with
    | true =>
      rw [if_pos rfl, Occurrence.placements_of_skipped _ _ _ hmet]
      rfl
    | false =>
      rw [if_neg (by simp)]
      cases hkind : n.kind with
      | addrmap => exact registersIn_registerFile hvalid hmet (by simp [hkind]) hchildren o
      | regfile => exact registersIn_registerFile hvalid hmet (by simp [hkind]) hchildren o
      | reg => exact registersIn_register hvalid hmet hkind explosion o
      | mem =>
        have hnone : ∀ e ∈ o.element.ofChild options.unrolled n,
            ((o.inside e).select isDescribed options.unrolled).map
              (Occurrence.placement id explosion) = [] := by
          intro e he
          have hnode : (o.inside e).element.node = n := Element.node_of_mem_ofChild he
          have hinner : isDescribed (o.inside e) = false :=
            isDescribed_of_not_register (by rw [hnode, hkind]; decide)
          rw [Occurrence.select_of_childless _ (hnode ▸ hvalid.children_of_memory hkind), hinner]
          rfl
        rw [Occurrence.placements, List.flatMap_eq_nil_iff.2 hnone]
        rfl

/-! The description as a whole. -/

theorem registersOf_block {options : WalkOptions} {explosion : Explosion} {o : Occurrence}
    (hvalid : o.element.node.IsValid) (hkind : o.element.node.kind.canBeTop = true)
    (hpath : o.instances id explosion = [(o.element.node.name, [])]) :
    registersOf standard [] 0 (blockElement standard options o.element) =
      (o.select isDescribed options.unrolled).map (Occurrence.placement id explosion) := by
  have hself : isDescribed o = false := isDescribed_of_not_register fun h => by
    simp [h, Kind.canBeTop] at hkind
  rw [blockElement, registersOf_addressBlock, List.nil_append, ← hpath, registersIn_flatMap,
    Occurrence.placements_select _ _ _ hself]
  apply List.flatMap_congr
  intro c hc
  exact registersIn_childElements options explosion c (hvalid.child hc) o

theorem describedRegisters_memoryMap {options : WalkOptions} (hroll : options.unroll = false)
    {top : Node} (hvalid : top.IsValid) (hkind : top.kind.canBeTop = true) :
    describedRegisters standard (memoryMapElement standard options top) =
      ((Occurrence.top top).select isDescribed options.unrolled).map
        (Occurrence.placement id (.decide top)) := by
  have hnames (explosion : Explosion) :
      registersIn standard [] 0 (mapNameElements standard top explosion) = [] := by
    cases explosion with
    | wrap => exact registersIn_leaf_cons (by decide) (by decide) (by decide) _ [] [] 0
    | explode => exact registersIn_nodeNames top [] 0
  rw [describedRegisters, memoryMapElement, groupElement, registersIn_append, hnames,
    List.nil_append, registersIn_eq, List.flatMap_map]
  cases hexplosion : Explosion.decide top with
  | wrap =>
    have hpath : (Occurrence.top top).instances id .wrap = [(top.name, [])] := rfl
    rw [blocks, List.flatMap_singleton]
    exact registersOf_block (o := .top top) hvalid hkind hpath
  | explode =>
    obtain ⟨htop, hblockable⟩ := Explosion.decide_eq_explode hexplosion
    have hself : isDescribed (.top top) = false :=
      isDescribed_of_not_register (by rw [Occurrence.top, Element.top, htop]; decide)
    rw [Occurrence.select_of_explode hexplosion hself, List.map_flatMap, blocks]
    apply List.flatMap_congr
    intro c hc
    have hchild := hblockable c.node (Element.node_mem_of_mem_children hc)
    have hindex := Element.index_of_mem_children hroll hc
    have hpath : ((Occurrence.top top).inside c).instances id .explode = [(c.node.name, [])] := by
      rw [Occurrence.instances_inside, Element.toInstance, hindex]
      rfl
    exact registersOf_block (o := (Occurrence.top top).inside c)
      (Element.isValid_of_mem_children hvalid hc) ((Explosion.isBlockable_iff _).1 hchild).1 hpath

/-- Read back from the description that an export writes, the registers of a map lie where
the walk meets them, one after another in its order: all but those of arrays with gaps. -/
theorem export_reads_as_walk (options : IpxactOptions) {top : Node} {destination : Path}
    {a : Artifact} {s : Session (List OpenElement)}
    (h : (emitter options).produce top destination = (.ok a, s)) :
    ∃ memoryMap, a = .text (component options top.name memoryMap).render ∧
      describedRegisters options.standard memoryMap =
        ((Occurrence.all { skipAbsent := options.skipAbsent, unroll := true } top).filter
          isDescribed).map (Occurrence.placement id (.decide top)) := by
  obtain ⟨⟨hkind, hvalid⟩, _⟩ := (emitter options).produce_eq_ok_iff.1 h
  refine ⟨memoryMapElement options.standard (walkOptions options) top, eq_render_of_produce h, ?_⟩
  exact describedRegisters_memoryMap rfl (Node.isValid_of_validate hvalid) hkind

/-- An array of register files in two dimensions, with an array of registers in each and
one with gaps. -/
def gridMap : Node :=
  (Node.addrmap "chip").addChild
    (({ Node.regfile "grid" with offset := 256, array := some ⟨[2, 2], 64⟩ }.addChild
      { Node.reg "dense" with offset := 8, array := some ⟨[2], 4⟩ }).addChild
      { Node.reg "sparse" with offset := 16, array := some ⟨[2], 8⟩ })

/-- The registers without gaps are read in every register file. -/
theorem export_reads_as_walk_of_grid :
    ∃ memoryMap s,
      (emitter {}).produce gridMap ⟨"chip.xml"⟩ =
          (.ok (.text (component {} "chip" memoryMap).render), s) ∧
        describedRegisters .ieee2014 memoryMap =
          [([("chip", []), ("grid", [0, 0]), ("dense", [0])], 264),
            ([("chip", []), ("grid", [0, 0]), ("dense", [1])], 268),
            ([("chip", []), ("grid", [0, 1]), ("dense", [0])], 328),
            ([("chip", []), ("grid", [0, 1]), ("dense", [1])], 332),
            ([("chip", []), ("grid", [1, 0]), ("dense", [0])], 392),
            ([("chip", []), ("grid", [1, 0]), ("dense", [1])], 396),
            ([("chip", []), ("grid", [1, 1]), ("dense", [0])], 456),
            ([("chip", []), ("grid", [1, 1]), ("dense", [1])], 460)] := by
  have hok : ((emitter {}).produce gridMap ⟨"chip.xml"⟩).1.isOk = true := by decide +kernel
  rcases hproduce : (emitter {}).produce gridMap ⟨"chip.xml"⟩ with ⟨reason | a, s⟩
  · rw [hproduce] at hok
    cases hok
  · obtain ⟨memoryMap, rfl, hregisters⟩ := export_reads_as_walk {} hproduce
    refine ⟨memoryMap, s, rfl, ?_⟩
    rw [hregisters]
    decide

end RegisterMap.Ipxact
