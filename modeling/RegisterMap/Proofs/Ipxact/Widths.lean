import RegisterMap.Proofs.Ipxact.Mirror
import RegisterMap.Proofs.Xml.RoundTrip

/-!
The widths of address blocks. A step of a description adds to the innermost open element only,
and leaves those around it as they are, so that a block is still the innermost one when all
below it has been met; its width is filled in there. It is that of the widest register with an
element in the block, whatever has been met before the block.
-/

namespace RegisterMap.Ipxact

open ExportM

variable {options : IpxactOptions} {standard : IpxactStandard}

/-! The elements that are open. -/

/-- A step that leaves the open elements as they are, but for what it adds to the innermost of
them. -/
def AddsInside {α : Type} (step : IpxactM α) : Prop :=
  ∀ s a t inner above, s.state = inner :: above → Yields step s a t →
    ∃ added, t.state = OpenElement.addAll inner added :: above

theorem Reports.addsInside {α : Type} {step : IpxactM α} {x : List Xml} {w : List Nat}
    {texts : List String} (h : Reports step x w texts) : AddsInside step :=
  fun s a t inner above hstate hstep => ⟨x, (h s a t inner above hstate hstep).1⟩

theorem addsInside_visitBlock {e : Element} (hvalid : e.node.IsValid) :
    AddsInside ((emitter options).visitBlock e) := by
  intro s _ t inner above hstate hstep
  have hbelow := reports_below fun c (hc : c ∈ e.children (walkOptions options)) =>
    reports_meet options c (Element.isValid_of_mem_children hvalid hc)
      (Element.isSkipped_of_mem_children hc)
  exact ⟨_, (yields_addressBlock hbelow hstate hstep).1⟩

/-- Whatever a walk meets below a valid element adds to the innermost open element only. -/
theorem addsInside_meet {e : Element} (hvalid : e.node.IsValid) :
    ∀ q ∈ e.descendants (walkOptions options), ∀ parent,
      AddsInside ((emitter options).meet parent q) := by
  induction e using Element.induction (walkOptions options) with
  | step e ih =>
    intro q hq parent
    obtain ⟨c, hc, hq⟩ := List.mem_flatMap.1 hq
    have hchild := Element.isValid_of_mem_children hvalid hc
    rw [Element.preorder_eq_cons, List.mem_cons] at hq
    rcases hq with rfl | hq
    · exact (reports_meet options q hchild (Element.isSkipped_of_mem_children hc) parent).addsInside
    · exact ih c hc hchild q hq parent

/-! The widest register with an element. -/

/-- The widths of the buses that the registers with an element ask for, below an element. -/
def describedWidths (walk : WalkOptions) (e : Element) : List Nat :=
  ((e.descendants walk).filter fun q => q.node.kind = .reg && !isLeftOut q).map
    fun q => q.node.busWidth

/-- The width of an address block: that of the widest register with an element in it. Where
there is none, it is that of the words of a memory, and else 32. -/
def widthOfBlock (walk : WalkOptions) (e : Element) : Nat :=
  (describedWidths walk e).max?.getD (if e.node.kind = .mem then e.node.memWidth else 32)

theorem foldl_widened (widest : Nat) (widths : List Nat) :
    widths.foldl widened (some widest) = some (widths.foldl max widest) := by
  induction widths generalizing widest with
  | nil => rfl
  | cons width rest ih => exact ih (max widest width)

theorem foldl_widened_eq_max? (widths : List Nat) : widths.foldl widened none = widths.max? := by
  cases widths with
  | nil => rfl
  | cons width rest => exact foldl_widened width rest

theorem flatMap_childWidths {walk : WalkOptions} (hroll : walk.unroll = false) {e : Element}
    (hvalid : e.node.IsValid)
    (hspaced : ∀ m ∈ e.node.visitedBelow walk.skipAbsent, m.kind = .reg → m.IsSpaced) :
    e.node.children.flatMap (childWidths walk) = describedWidths walk e := by
  induction e using Element.induction walk with
  | step e ih =>
    have hnodes := Element.flatMap_children hroll e (f := childWidths walk) fun n hn => by
      rw [childWidths_eq, if_pos hn]
    rw [← hnodes, describedWidths, Element.descendants, List.filter_flatMap, List.map_flatMap]
    apply List.flatMap_congr
    intro c hc
    have hchild := Element.isValid_of_mem_children hvalid hc
    have hbelow : c.node.children.flatMap (childWidths walk) = describedWidths walk c :=
      ih c hc hchild fun m hm => hspaced m
        (Element.mem_visitedBelow_of_child hc (Node.mem_visited_of_below hm))
    have hmet := Element.isSkipped_of_mem_children hc
    rw [Element.preorder_eq_cons, List.filter_cons, childWidths_eq, hmet, if_neg Bool.false_ne_true]
    cases hkind : c.node.kind with
    | addrmap => simpa [describedWidths] using hbelow
    | regfile => simpa [describedWidths] using hbelow
    | reg =>
      have hleft := isLeftOut_of_register hkind (hspaced c.node
        (Element.mem_visitedBelow_of_child hc (Node.mem_visited_self _ _)) hkind)
      have hnone : c.descendants walk = [] := by
        rw [Element.descendants, Element.children, hchild.children_of_register hkind]
        rfl
      by_cases hcontiguous : c.node.strideCheck = .contiguous
      · simp [hleft, hcontiguous, hnone]
      · simp [hleft, hcontiguous, hnone]
    | mem =>
      have hnone : c.descendants walk = [] := by
        rw [Element.descendants, Element.children, hchild.children_of_memory hkind]
        rfl
      simp [hnone]

/-! Elements by their names. -/

/-- The elements of some that have a name. -/
def named (standard : IpxactStandard) (name : String) (elements : List Xml) : List Xml :=
  elements.filter fun x => x.name = tag standard name

theorem named_append (name : String) (x y : List Xml) :
    named standard name (x ++ y) = named standard name x ++ named standard name y :=
  List.filter_append ..

theorem named_eq_nil {name : String} {elements : List Xml}
    (h : ∀ x ∈ elements, x.name ≠ tag standard name) : named standard name elements = [] := by
  rw [named, List.filter_eq_nil_iff]
  exact fun x hx => by simpa using h x hx

theorem named_leaf_cons (name other text : String) (rest : List Xml) :
    named standard name (leafElement standard other text :: rest) =
      (if other = name then [leafElement standard other text] else []) ++
        named standard name rest := by
  unfold named leafElement
  by_cases h : other = name <;> simp [h, tag_inj]

theorem named_optional {name other : String} (h : other ≠ name) (text : Option String) :
    named standard name (optionalElement standard other text) = [] := by
  cases text with
  | none => rfl
  | some text =>
    refine (named_leaf_cons name other text []).trans ?_
    rw [if_neg h]
    rfl

/-- What stands for a child is a register file or a register. -/
theorem name_of_mem_childElements {walk : WalkOptions} {n : Node} {x : Xml}
    (h : x ∈ childElements standard walk n) :
    x.name = tag standard "registerFile" ∨ x.name = tag standard "register" := by
  rw [childElements_eq] at h
  split at h
  · cases h
  · split at h
    · rw [List.mem_singleton.1 h]
      exact Or.inl rfl
    · rw [List.mem_singleton.1 h]
      exact Or.inl rfl
    · split at h
      · rw [List.mem_singleton.1 h]
        exact Or.inr rfl
      · cases h
    · cases h

/-- An address block has one element for its width. -/
theorem named_width_addressBlock (walk : WalkOptions) (n : Node) (address : Nat)
    (busWidth : Option Nat) :
    named standard "width" (addressBlockElement standard n address busWidth
        (n.children.flatMap (childElements standard walk))).children =
      [leafElement standard "width" (toString (blockWidth n busWidth))] := by
  have hnames : named standard "width" (nodeNameElements standard n) = [] := by
    rw [nodeNameElements, nameElements, named_leaf_cons, named_append,
      named_optional (by decide), named_optional (by decide)]
    rfl
  have hpresence : named standard "width" (presenceElements standard n.isPresent) = [] := by
    unfold presenceElements
    split
    · rfl
    · exact named_leaf_cons ..
  have hmemory : named standard "width" (memoryElements standard n) = [] := by
    unfold memoryElements
    split
    · rw [named_leaf_cons, named_optional (by decide)]
      rfl
    · rfl
  have hinside :
      named standard "width" (n.children.flatMap (childElements standard walk)) = [] := by
    apply named_eq_nil
    intro x hx
    obtain ⟨c, _, hc⟩ := List.mem_flatMap.1 hx
    rcases name_of_mem_childElements hc with hname | hname
    · rw [hname, Ne, tag_inj]
      decide
    · rw [hname, Ne, tag_inj]
      decide
  simp [addressBlockElement, groupElement, named_append, named_leaf_cons, hnames, hpresence,
    hmemory, hinside]

theorem exists_partsOf_eq_cons {x : Xml} {role : Role}
    (h : Role.ofTag? standard x.name = some role) (path : List String) :
    ∃ part : Part, part.role = role ∧
      partsOf standard path x = part :: partsIn standard part.path x.children := by
  cases x with
  | mk name attributes text children =>
    refine ⟨⟨role, path ++ [textOf standard "name" children], dimensionsOf standard children⟩,
      rfl, ?_⟩
    simp only [partsOf, h]

/-- An element with a role is one of the parts from any element around it downwards. -/
theorem exists_part_of_mem_elements (role : Role) (x : Xml) :
    ∀ path, ∀ y ∈ x.elements, y.name = tag standard role.word →
      ∃ p ∈ partsOf standard path x, p.role = role := by
  have hword : Role.ofWord? role.word = some role := by cases role <;> rfl
  induction x using Xml.induction with
  | step x ih =>
    intro path y hy hname
    rw [Xml.elements_eq, List.mem_cons, List.mem_flatMap] at hy
    rcases hy with rfl | ⟨c, hc, hyc⟩
    · have htag : Role.ofTag? standard y.name = some role := by
        rw [hname, Role.ofTag?_tag, hword]
      obtain ⟨part, hrole, hparts⟩ := exists_partsOf_eq_cons htag path
      exact ⟨part, hparts ▸ List.mem_cons_self, hrole⟩
    · have hbelow (inner : List String) :
          ∃ p ∈ partsIn standard inner x.children, p.role = role := by
        obtain ⟨p, hp, hrole⟩ := ih c hc inner y hyc hname
        exact ⟨p, partsIn_eq standard inner x.children ▸ List.mem_flatMap.2 ⟨c, hc, hp⟩, hrole⟩
      cases htag : Role.ofTag? standard x.name with
      | some other =>
        obtain ⟨part, _, hparts⟩ := exists_partsOf_eq_cons htag path
        obtain ⟨p, hp, hrole⟩ := hbelow part.path
        exact ⟨p, hparts ▸ List.mem_cons_of_mem part hp, hrole⟩
      | none =>
        have hparts : partsOf standard path x = partsIn standard path x.children := by
          cases x
          simp only [partsOf, htag]
        exact hparts ▸ hbelow path

/-- No block lies in what stands for a child. -/
theorem role_ne_of_mem_childElements (walk : WalkOptions) (n : Node) :
    ∀ path, ∀ p ∈ partsIn standard path (childElements standard walk n),
      p.role ≠ .addressBlock := by
  induction n using Node.induction with
  | step n ih =>
    intro path
    have hcontainer : ∀ p ∈ partsIn standard path [registerFileElement standard n
        (n.children.flatMap (childElements standard walk))], p.role ≠ .addressBlock := by
      rw [partsIn, partsIn_nil, List.append_nil,
        partsOf_registerFile n (dimensionsOf_childElements _), partsIn_flatMap]
      refine List.forall_mem_cons.2 ⟨by simp, fun p hp => ?_⟩
      obtain ⟨c, hc, hp⟩ := List.mem_flatMap.1 hp
      exact ih c hc _ p hp
    rw [childElements_eq]
    split
    · simp
    · split
      · exact hcontainer
      · exact hcontainer
      · split
        · rw [partsIn, partsIn_nil, List.append_nil, partsOf_register]
          refine List.forall_mem_cons.2 ⟨by simp, fun p hp => ?_⟩
          obtain ⟨f, _, rfl⟩ := List.mem_map.1 hp
          simp
        · simp
      · simp

/-- A block has no other block in it. -/
theorem named_elements_blockElement (walk : WalkOptions) (e : Element) :
    named standard "addressBlock" (blockElement standard walk e).elements =
      [blockElement standard walk e] := by
  have htag : Role.ofTag? standard (blockElement standard walk e).name = some .addressBlock :=
    Role.ofTag?_tag standard "addressBlock"
  obtain ⟨part, _, hparts⟩ := exists_partsOf_eq_cons htag []
  have hblock : partsOf standard [] (blockElement standard walk e) = _ :=
    partsOf_addressBlock e.node e.address _ (dimensionsOf_childElements _) []
  have hinside : ∀ p ∈ partsIn standard part.path (blockElement standard walk e).children,
      p.role ≠ .addressBlock := by
    rw [(List.cons.inj (hparts.symm.trans hblock)).2, partsIn_flatMap]
    intro p hp
    obtain ⟨c, _, hp⟩ := List.mem_flatMap.1 hp
    exact role_ne_of_mem_childElements walk c _ p hp
  have hbelow : named standard "addressBlock"
      ((blockElement standard walk e).children.flatMap Xml.elements) = [] := by
    apply named_eq_nil
    intro y hy hname
    obtain ⟨c, hc, hyc⟩ := List.mem_flatMap.1 hy
    obtain ⟨p, hp, hrole⟩ := exists_part_of_mem_elements .addressBlock c part.path y hyc hname
    exact hinside p (partsIn_eq standard part.path _ ▸ List.mem_flatMap.2 ⟨c, hc, hp⟩) hrole
  have hself : (blockElement standard walk e).name = tag standard "addressBlock" := rfl
  rw [Xml.elements_eq, named, List.filter_cons_of_pos (by simpa using hself)]
  exact congrArg _ hbelow

theorem named_elements_leaf {name other : String} (h : other ≠ name) (text : String) :
    named standard name (leafElement standard other text).elements = [] := by
  rw [Xml.elements_eq]
  refine (named_leaf_cons name other text []).trans ?_
  rw [if_neg h]
  rfl

theorem named_elements_of_other {x : Xml} {name : String} (h : x.name ≠ tag standard name) :
    named standard name x.elements =
      x.children.flatMap fun c => named standard name c.elements := by
  rw [Xml.elements_eq, named, List.filter_cons_of_neg (by simpa using h), List.filter_flatMap]
  rfl

/-- The names of a memory map are no blocks. -/
theorem named_elements_mapName (top : Node) (explosion : Explosion) :
    ∀ x ∈ mapNameElements standard top explosion,
      named standard "addressBlock" x.elements = [] := by
  have hoptional (name : String) (hname : name ≠ "addressBlock") (text : Option String) :
      ∀ x ∈ optionalElement standard name text, named standard "addressBlock" x.elements = [] := by
    cases text with
    | none => nofun
    | some text =>
      intro x hx
      rw [List.mem_singleton.1 hx]
      exact named_elements_leaf hname text
  cases explosion with
  | wrap =>
    intro x hx
    rw [List.mem_singleton.1 hx]
    exact named_elements_leaf (by decide) _
  | explode =>
    refine List.forall_mem_cons.2 ⟨named_elements_leaf (by decide) _, ?_⟩
    exact List.forall_mem_append.2
      ⟨hoptional "displayName" (by decide) _, hoptional "description" (by decide) _⟩

/-- The blocks of a description are those of the map, in their order. -/
theorem named_elements_component (walk : WalkOptions) (options : IpxactOptions) (top : Node) :
    named options.standard "addressBlock"
        (component options top.name (memoryMapElement options.standard walk top)).elements =
      (blocks walk top (.decide top)).map (blockElement options.standard walk) := by
  have hother {name : String} (hname : name ≠ "addressBlock") :
      tag options.standard name ≠ tag options.standard "addressBlock" :=
    fun h => hname (tag_inj.1 h)
  have hleaf {name : String} (hname : name ≠ "addressBlock") (text : String) :
      named options.standard "addressBlock" (leafElement options.standard name text).elements =
        [] :=
    named_elements_leaf hname text
  have hnames : ((mapNameElements options.standard top (.decide top)).flatMap
      fun x => named options.standard "addressBlock" x.elements) = [] :=
    List.flatMap_eq_nil_iff.2 (named_elements_mapName top _)
  have hmap : named options.standard "addressBlock"
      (memoryMapElement options.standard walk top).elements =
        (blocks walk top (.decide top)).map (blockElement options.standard walk) := by
    rw [named_elements_of_other (hother (by decide) : (memoryMapElement ..).name ≠ _)]
    simp only [memoryMapElement, groupElement, List.flatMap_append, hnames, List.nil_append,
      List.flatMap_map, named_elements_blockElement]
    exact List.map_eq_flatMap.symm
  have hmaps : named options.standard "addressBlock" (groupElement options.standard "memoryMaps"
      [memoryMapElement options.standard walk top]).elements = _ :=
    (named_elements_of_other (hother (by decide))).trans <| by
      rw [groupElement, List.flatMap_singleton, hmap]
  rw [named_elements_of_other (hother (by decide) : (component ..).name ≠ _)]
  change List.flatMap _ [leafElement options.standard "vendor" options.vendor,
    leafElement options.standard "library" options.library,
    leafElement options.standard "name" top.name,
    leafElement options.standard "version" options.version,
    groupElement options.standard "memoryMaps" [memoryMapElement options.standard walk top]] = _
  simp only [List.flatMap_cons, List.flatMap_nil, List.append_nil, hmaps]
  rw [hleaf (by decide), hleaf (by decide), hleaf (by decide), hleaf (by decide)]
  rfl

/-! The blocks of a map. -/

theorem valid_of_mem_blocks {walk : WalkOptions} {top : Node} (hvalid : top.IsValid) :
    ∀ e ∈ blocks walk top (.decide top), e.node.IsValid := by
  intro e he
  cases hexplosion : Explosion.decide top with
  | wrap =>
    rw [hexplosion, blocks, List.mem_singleton] at he
    exact he ▸ hvalid
  | explode =>
    rw [hexplosion] at he
    exact Element.isValid_of_mem_children hvalid he

/-- Whatever lies below a block lies below the top. -/
theorem visitedBelow_of_mem_blocks {walk : WalkOptions} {top : Node} :
    ∀ e ∈ blocks walk top (.decide top), ∀ m ∈ e.node.visitedBelow walk.skipAbsent,
      m ∈ top.visitedBelow walk.skipAbsent := by
  intro e he m hm
  cases hexplosion : Explosion.decide top with
  | wrap =>
    rw [hexplosion, blocks, List.mem_singleton] at he
    subst he
    exact hm
  | explode =>
    rw [hexplosion] at he
    exact Element.mem_visitedBelow_of_child he (Node.mem_visited_of_below hm)

theorem textOf_name_blockElement (walk : WalkOptions) (e : Element) :
    textOf standard "name" (blockElement standard walk e).children = e.node.name := by
  simp [blockElement, addressBlockElement, groupElement, textOf, nodeNameElements, nameElements]

/-- The width that is filled in is that of the widest register with an element. -/
theorem blockWidth_eq {walk : WalkOptions} (hroll : walk.unroll = false) {e : Element}
    (hvalid : e.node.IsValid)
    (hspaced : ∀ m ∈ e.node.visitedBelow walk.skipAbsent, m.kind = .reg → m.IsSpaced) :
    blockWidth e.node ((e.node.children.flatMap (childWidths walk)).foldl widened none) =
      widthOfBlock walk e := by
  rw [flatMap_childWidths hroll hvalid hspaced, foldl_widened_eq_max?]
  rfl

/-- Every step of an export adds to the innermost open element only, so that one element is
open at the end; and each address block of the description has one width, which is that of
the widest register with an element in the block, whatever the blocks before it hold. -/
theorem export_fills_widths (options : IpxactOptions) {top : Node} {destination : Path}
    {a : Artifact} {s : Session (List OpenElement)}
    (h : (emitter options).produce top destination = (.ok a, s)) :
    let walk := walkOptions options
    (∀ e ∈ blocks walk top (.decide top), AddsInside ((emitter options).visitBlock e) ∧
      ∀ q ∈ e.descendants walk, ∀ parent, AddsInside ((emitter options).meet parent q)) ∧
    (∀ f access e, AddsInside ((emitter options).field f access e)) ∧
    ∃ memoryMap : OpenElement, s.state = [memoryMap] ∧
      a = .text (component options top.name memoryMap.close).render ∧
      List.Forall₂
        (fun e x => textOf options.standard "name" x.children = e.node.name ∧
          named options.standard "width" x.children =
            [leafElement options.standard "width" (toString (widthOfBlock walk e))])
        (blocks walk top (.decide top))
        (named options.standard "addressBlock"
          (component options top.name memoryMap.close).elements) := by
  intro walk
  obtain ⟨⟨hkind, hvalidated⟩, _⟩ := (emitter options).produce_eq_ok_iff.1 h
  have hvalid : ∀ e ∈ blocks walk top (.decide top), e.node.IsValid :=
    valid_of_mem_blocks (Node.isValid_of_validate hvalidated)
  have hguards : (emitter options).Guards OpenTo OpenTo (fun _ => True) fun _ => True :=
    guards options trivial
  have hpassed := hguards.produce hkind hvalidated (fun _ _ _ _ _ _ => trivial) destination
  rw [h] at hpassed
  refine ⟨fun e he => ⟨addsInside_visitBlock (hvalid e he), addsInside_meet (hvalid e he)⟩,
    fun f _ _ => (writes_field f).addsInside, ?_⟩
  obtain ⟨memoryMap, hstate, hclose, htext, _⟩ := state_and_render_of_produce h
  refine ⟨memoryMap, hstate, htext, ?_⟩
  rw [hclose, named_elements_component, List.forall₂_map_right_iff, List.forall₂_same]
  intro e he
  refine ⟨textOf_name_blockElement walk e, ?_⟩
  rw [blockElement, named_width_addressBlock, blockWidth_eq rfl (hvalid e he) fun m hm =>
    (hpassed m (visitedBelow_of_mem_blocks e he m hm)).1]

/-- A map of four blocks. The widest register lies in the first; in the second, one with gaps
between its elements is left out; the third is a memory, and the last is empty. -/
def mixedMap : Node :=
  let timer : Node := (Node.reg "timer").withProperty "regwidth" (.int 64)
  let ctrl : Node := ((Node.reg "ctrl").withProperty "regwidth" (.int 8)).withProperty
    "accesswidth" (.int 16)
  let gaps : Node := { timer with name := "gaps", offset := 64, array := some ⟨[2], 16⟩ }
  let bank : Node := { Node.regfile "bank" with array := some ⟨[2], 32⟩ }
  let wide : Node := (Node.addrmap "wide").addChild timer
  let narrow : Node := ((Node.addrmap "narrow").addChild (bank.addChild ctrl)).addChild gaps
  let rom : Node := { Node.mem "rom" 4 24 with offset := 4096 }
  let spare : Node := { Node.addrmap "spare" with offset := 8192 }
  ((((Node.addrmap "soc").addChild wide).addChild { narrow with offset := 256 }).addChild
    rom).addChild spare

/-- The width of a block is not that of the block before it. -/
theorem export_fills_widths_of_mixed :
    ∃ memoryMap s,
      let options : IpxactOptions := {}
      let description := component options "soc" memoryMap.close
      (emitter options).produce mixedMap ⟨"soc.xml"⟩ = (.ok (.text description.render), s) ∧
        s.state = [memoryMap] ∧
        List.Forall₂
          (fun (e : String × Nat) x => textOf .ieee2014 "name" x.children = e.1 ∧
            named .ieee2014 "width" x.children =
              [leafElement .ieee2014 "width" (toString e.2)])
          [("wide", 64), ("narrow", 16), ("rom", 24), ("spare", 32)]
          (named .ieee2014 "addressBlock" description.elements) := by
  have hok : ((emitter {}).produce mixedMap ⟨"soc.xml"⟩).1.isOk = true := by
    decide +kernel
  obtain ⟨a, s, hproduce, _⟩ := (emitter {}).exists_produce_eq_ok hok
  obtain ⟨_, _, memoryMap, hstate, rfl, hwidths⟩ := export_fills_widths {} hproduce
  have hblocks : (blocks (walkOptions {}) mixedMap (.decide mixedMap)).map
      (fun e => (e.node.name, widthOfBlock (walkOptions {}) e)) =
        [("wide", 64), ("narrow", 16), ("rom", 24), ("spare", 32)] := by decide +kernel
  refine ⟨memoryMap, s, hproduce, hstate, ?_⟩
  rw [← hblocks, List.forall₂_map_left_iff]
  exact hwidths

end RegisterMap.Ipxact
