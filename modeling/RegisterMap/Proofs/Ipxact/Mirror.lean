import RegisterMap.Proofs.Ipxact.Outline
import RegisterMap.Proofs.Ipxact.Stack

/-!
The outline of the memory map that an export writes, told from the walk of the map. Every
occurrence has its element in that of the one around it, but for those that are left out;
and each of these is warned of.
-/

namespace RegisterMap.Ipxact

variable (options : WalkOptions) (explosion : Explosion)

/-- The names that lead to an occurrence, without that of a split top. -/
def namesTo (o : Occurrence) : List String := (o.instances id explosion).map Prod.fst

theorem namesTo_inside (o : Occurrence) (e : Element) :
    namesTo explosion (o.inside e) = namesTo explosion o ++ [e.node.name] := by
  rw [namesTo, Occurrence.instances_inside, List.map_append]
  rfl

/-- An occurrence below an address block that has no element. -/
def isDiscarded (o : Occurrence) : Bool := !o.isBlock explosion && isLeftOut o.element

/-- The part that stands for an occurrence. -/
def nodePart (o : Occurrence) : Part :=
  if o.isBlock explosion then ⟨.addressBlock, namesTo explosion o, []⟩
  else
    { role := if o.element.node.kind = .reg then .register else .registerFile
      path := namesTo explosion o
      dimensions := (o.element.node.array.map (·.dimensions)).getD [] }

/-- The parts that stand for the fields of a register. -/
def fieldParts (o : Occurrence) : List Part :=
  if o.element.node.kind = .reg then
    (o.element.node.metFields options).map fun f =>
      ⟨.field, namesTo explosion o ++ [f.name], []⟩
  else []

/-- The parts of an occurrence: none for a split top, which the memory map itself stands
for, and none for what is left out. -/
def outline (o : Occurrence) : List Part :=
  if o.above.length < explosion.depth ∨ isDiscarded explosion o = true then []
  else nodePart explosion o :: fieldParts options explosion o

variable {options explosion} {standard : IpxactStandard}

theorem isBlock_inside {o : Occurrence} (hdepth : explosion.depth ≤ o.above.length) (e : Element) :
    (o.inside e).isBlock explosion = false := by
  simp only [Occurrence.isBlock, Occurrence.inside, List.length_cons, beq_eq_false_iff_ne]
  omega

theorem fieldParts_of_not_register {o : Occurrence} (h : o.element.node.kind ≠ .reg) :
    fieldParts options explosion o = [] := by
  rw [fieldParts, if_neg h]

theorem outline_of_discarded {o : Occurrence} (h : isDiscarded explosion o = true) :
    outline options explosion o = [] := by
  rw [outline, if_pos (Or.inr h)]

theorem outline_inside {o : Occurrence} (hdepth : explosion.depth ≤ o.above.length) {e : Element}
    (h : isLeftOut e = false) :
    outline options explosion (o.inside e) =
      ⟨if e.node.kind = .reg then .register else .registerFile,
          namesTo explosion o ++ [e.node.name], (e.node.array.map (·.dimensions)).getD []⟩ ::
        fieldParts options explosion (o.inside e) := by
  have hblock := isBlock_inside hdepth e
  have hhas : ¬ ((o.inside e).above.length < explosion.depth ∨
      isDiscarded explosion (o.inside e) = true) := by
    simp only [isDiscarded, h, Bool.and_false, Bool.false_eq_true, or_false, Occurrence.inside,
      List.length_cons]
    omega
  rw [outline, if_neg hhas, nodePart, hblock, if_neg Bool.false_ne_true, namesTo_inside]
  rfl

theorem dimensionsOf_childElements (nodes : List Node) :
    dimensionsOf standard (nodes.flatMap (childElements standard options)) = [] := by
  have hgroups : ∀ x ∈ nodes.flatMap (childElements standard options), x.text = none := by
    intro x hx
    obtain ⟨n, _, hn⟩ := List.mem_flatMap.1 hx
    exact text_childElements hn
  rw [dimensionsOf, textsOf_of_groups hgroups, List.map_nil]

/-- What stands for the children of a node are the parts of the occurrences below it. -/
theorem partsIn_below (hroll : options.unroll = false) {o : Occurrence}
    (hchildren : ∀ c ∈ o.element.children options,
      partsIn standard (namesTo explosion o) (childElements standard options c.node) =
        ((o.inside c).walk options).flatMap (outline options explosion)) :
    partsIn standard (namesTo explosion o)
        (o.element.node.children.flatMap (childElements standard options)) =
      ((o.children options).flatMap (Occurrence.walk options)).flatMap
        (outline options explosion) := by
  have hnodes := Element.flatMap_children hroll o.element
    (f := fun n => partsIn standard (namesTo explosion o) (childElements standard options n))
    fun n hn => by rw [childElements_eq, if_pos hn, partsIn_nil]
  rw [partsIn_flatMap, ← hnodes, Occurrence.children, List.flatMap_map, List.flatMap_assoc]
  exact List.flatMap_congr hchildren

/-- The elements that stand for a node have the parts of its occurrences, wherever it lies. -/
theorem partsIn_childElements (hroll : options.unroll = false) (e : Element) :
    e.node.IsValid → e.node.isSkipped options = false →
    (∀ m ∈ e.node.visited options.skipAbsent, m.kind = .reg → m.IsSpaced) →
    ∀ o : Occurrence, explosion.depth ≤ o.above.length →
      partsIn standard (namesTo explosion o) (childElements standard options e.node) =
        ((o.inside e).walk options).flatMap (outline options explosion) := by
  induction e using Element.induction options with
  | step e ih =>
    intro hvalid hmet hspaced o hdepth
    have hbelow := partsIn_below (o := o.inside e) hroll fun c hc =>
      ih c hc (Element.isValid_of_mem_children hvalid hc) (Element.isSkipped_of_mem_children hc)
        (fun m hm =>
          hspaced m (Node.mem_visited_of_below (Element.mem_visitedBelow_of_child hc hm)))
        (o.inside e) (Nat.le_succ_of_le hdepth)
    have hcontainer (hkind : e.node.kind = .addrmap ∨ e.node.kind = .regfile) :
        partsIn standard (namesTo explosion o) [registerFileElement standard e.node
            (e.node.children.flatMap (childElements standard options))] =
          ((o.inside e).walk options).flatMap (outline options explosion) := by
      have hreg : e.node.kind ≠ .reg := by rcases hkind with h | h <;> simp [h]
      rw [Occurrence.walk_eq, List.flatMap_cons, ← hbelow,
        outline_inside hdepth (isLeftOut_of_container hkind), if_neg hreg,
        fieldParts_of_not_register (o := o.inside e) hreg, partsIn, partsIn_nil,
        partsOf_registerFile _ (dimensionsOf_childElements _), namesTo_inside]
      exact List.append_nil _
    rw [childElements_eq, hmet, if_neg Bool.false_ne_true]
    cases hkind : e.node.kind with
    | addrmap => exact hcontainer (Or.inl hkind)
    | regfile => exact hcontainer (Or.inr hkind)
    | reg =>
      -- No elements overlap here, so that the register has an element or is discarded.
      have hleft := isLeftOut_of_register hkind (hspaced e.node (Node.mem_visited_self _ _) hkind)
      rw [Occurrence.walk_of_childless (o := o.inside e) (hvalid.children_of_register hkind),
        List.flatMap_singleton]
      by_cases hcontiguous : e.node.strideCheck = .contiguous
      · have hkept : isLeftOut e = false := by simp [hleft, hcontiguous]
        simp only [hcontiguous, if_true]
        rw [outline_inside hdepth hkept, if_pos hkind, partsIn, partsIn_nil, partsOf_register,
          fieldParts, Occurrence.element_inside, if_pos hkind, namesTo_inside, List.append_nil]
      · have hdiscarded : isDiscarded explosion (o.inside e) = true := by
          simp [isDiscarded, isBlock_inside hdepth, hleft, hcontiguous]
        rw [outline_of_discarded hdiscarded]
        simp [hcontiguous]
    | mem =>
      have hdiscarded : isDiscarded explosion (o.inside e) = true := by
        simp [isDiscarded, isBlock_inside hdepth, isLeftOut_of_memory hkind]
      rw [Occurrence.walk_of_childless (o := o.inside e) (hvalid.children_of_memory hkind),
        List.flatMap_singleton, outline_of_discarded hdiscarded, partsIn_nil]

/-! Address blocks, and the map as a whole. -/

theorem outline_of_block {o : Occurrence} (hblock : o.isBlock explosion = true)
    (hkind : o.element.node.kind.canBeTop = true) :
    outline options explosion o = [⟨.addressBlock, namesTo explosion o, []⟩] := by
  have hreg : o.element.node.kind ≠ .reg := fun h => by simp [h, Kind.canBeTop] at hkind
  have hdepth : o.above.length = explosion.depth := beq_iff_eq.1 hblock
  have hhas : ¬ (o.above.length < explosion.depth ∨ isDiscarded explosion o = true) := by
    simp [isDiscarded, hblock, hdepth]
  rw [outline, if_neg hhas, nodePart, if_pos hblock, fieldParts_of_not_register hreg]

theorem partsOf_blockElement (hroll : options.unroll = false) {o : Occurrence}
    (hblock : o.isBlock explosion = true) (hkind : o.element.node.kind.canBeTop = true)
    (hvalid : o.element.node.IsValid)
    (hspaced : ∀ m ∈ o.element.node.visitedBelow options.skipAbsent,
      m.kind = .reg → m.IsSpaced)
    (hnames : namesTo explosion o = [o.element.node.name]) :
    partsOf standard [] (blockElement standard options o.element) =
      (o.walk options).flatMap (outline options explosion) := by
  have hdepth : explosion.depth ≤ o.above.length := Nat.le_of_eq (beq_iff_eq.1 hblock).symm
  have hbelow : partsIn standard (namesTo explosion o) _ = _ := partsIn_below hroll fun c hc =>
    partsIn_childElements hroll c (Element.isValid_of_mem_children hvalid hc)
      (Element.isSkipped_of_mem_children hc)
      (fun m hm => hspaced m (Element.mem_visitedBelow_of_child hc hm)) o hdepth
  rw [Occurrence.walk_eq, List.flatMap_cons, ← hbelow, outline_of_block hblock hkind, hnames,
    blockElement, partsOf_addressBlock _ _ _ (dimensionsOf_childElements _), List.nil_append]
  rfl

theorem partsIn_memoryMap (hroll : options.unroll = false) {top : Node}
    (hkind : top.kind.canBeTop = true) (hvalid : top.IsValid)
    (hspaced : ∀ m ∈ top.visitedBelow options.skipAbsent, m.kind = .reg → m.IsSpaced) :
    partsIn standard [] (memoryMapElement standard options top).children =
      (Occurrence.all options top).flatMap (outline options (.decide top)) := by
  have hnames : partsIn standard [] (mapNameElements standard top (.decide top)) = [] := by
    cases Explosion.decide top with
    | wrap => exact (remarks_leaf (by decide) (by decide) _).partsIn_eq_nil []
    | explode => exact (remarks_names _ _ _).partsIn_eq_nil []
  rw [memoryMapElement, groupElement, partsIn_append, hnames, List.nil_append, partsIn_eq,
    List.flatMap_map]
  cases hexplosion : Explosion.decide top with
  | wrap =>
    rw [blocks, List.flatMap_singleton]
    exact partsOf_blockElement (o := .top top) hroll rfl hkind hvalid hspaced rfl
  | explode =>
    obtain ⟨_, hblockable⟩ := Explosion.decide_eq_explode hexplosion
    have htop : outline options .explode (.top top) = [] := if_pos (Or.inl Nat.zero_lt_one)
    rw [Occurrence.all, Occurrence.walk_eq, List.flatMap_cons, htop, List.nil_append,
      Occurrence.children, List.flatMap_map, List.flatMap_assoc, blocks]
    apply List.flatMap_congr
    intro c hc
    have hchild := hblockable c.node (Element.node_mem_of_mem_children hc)
    exact partsOf_blockElement (o := (Occurrence.top top).inside c) hroll rfl
      ((Explosion.isBlockable_iff _).1 hchild).1 (Element.isValid_of_mem_children hvalid hc)
      (fun m hm => hspaced m
        (Element.mem_visitedBelow_of_child hc (Node.mem_visited_of_below hm)))
      (namesTo_inside .explode (.top top) c)

/-! Warnings. -/

/-- The occurrences that have no element, in the order of the walk. -/
def discarded (options : WalkOptions) (top : Node) : List Occurrence :=
  (Occurrence.all options top).filter (isDiscarded (.decide top))

theorem discards_walk {o : Occurrence} (hdepth : explosion.depth ≤ o.above.length) (e : Element) :
    (((o.inside e).walk options).filter (isDiscarded explosion)).map (discardText ·.element) =
      discardTexts options e := by
  have hbelow : ∀ q ∈ (o.inside e).walk options,
      isDiscarded explosion q = (isLeftOut ∘ Occurrence.element) q := by
    intro q hq
    have habove : o.above.length + 1 ≤ q.above.length := Occurrence.length_above_le_of_mem_walk hq
    have hblock : q.isBlock explosion = false := by
      simp only [Occurrence.isBlock, beq_eq_false_iff_ne]
      omega
    rw [isDiscarded, hblock]
    rfl
  have helements := Occurrence.map_element_walk options (o.inside e)
  rw [List.filter_congr hbelow, discardTexts, ← Occurrence.element_inside o e, ← helements,
    List.filter_map, List.map_map]
  rfl

/-- A block is not discarded, so that the warnings are those of what is below it. -/
theorem discards_block {o : Occurrence} (hblock : o.isBlock explosion = true) :
    ((o.walk options).filter (isDiscarded explosion)).map (discardText ·.element) =
      blockTexts options o.element := by
  have hself : ¬ isDiscarded explosion o = true := by simp [isDiscarded, hblock]
  have hdepth : explosion.depth ≤ o.above.length := Nat.le_of_eq (beq_iff_eq.1 hblock).symm
  rw [Occurrence.walk_eq, List.filter_cons_of_neg hself, Occurrence.children, List.flatMap_map,
    List.filter_flatMap, List.map_flatMap, blockTexts]
  exact List.flatMap_congr fun c _ => discards_walk hdepth c

theorem discards_map (options : WalkOptions) (top : Node) :
    (blocks options top (.decide top)).flatMap (blockTexts options) =
      (discarded options top).map (discardText ·.element) := by
  unfold discarded
  cases hexplosion : Explosion.decide top with
  | wrap =>
    rw [blocks, List.flatMap_singleton]
    exact (discards_block (o := .top top) rfl).symm
  | explode =>
    obtain ⟨htop, _⟩ := Explosion.decide_eq_explode hexplosion
    have hself : ¬ isDiscarded .explode (.top top) = true := by
      simp [isDiscarded, isLeftOut, Occurrence.top, Element.top, htop]
    rw [Occurrence.all, Occurrence.walk_eq, List.filter_cons_of_neg hself, Occurrence.children,
      List.flatMap_map, List.filter_flatMap, List.map_flatMap, blocks]
    exact List.flatMap_congr fun c _ =>
      (discards_block (o := (Occurrence.top top).inside c) rfl).symm

/-- The name of a memory map: that of a split top, which it stands for. -/
def mapName (top : Node) : String :=
  match Explosion.decide top with
  | .explode => top.name
  | .wrap => top.name ++ "_mmap"

theorem textOf_name_memoryMap (options : WalkOptions) (top : Node) :
    textOf standard "name" (memoryMapElement standard options top).children = mapName top := by
  unfold memoryMapElement mapName groupElement mapNameElements textOf
  cases Explosion.decide top <;> simp [nodeNameElements, nameElements]

/-- The memory map that an export writes has an element for every occurrence of its walk, in
the element of the one around it and in the order of the walk, but for the occurrences that
are discarded. Each of these is warned of, in the order of the walk, and nothing else is; the
report of the export counts them. -/
theorem export_mirrors_walk {m : Type → Type} [Monad m] [LawfulMonad m] (fs : FileSystem m)
    (options : IpxactOptions) {top : Node} {destination : Path} {a : Artifact}
    {s : Session (List OpenElement)}
    (h : (emitter options).produce top destination = (.ok a, s)) :
    let walk : WalkOptions := { skipAbsent := options.skipAbsent }
    let warnings := (discarded walk top).map (discardText ·.element)
    (∃ memoryMap, a = .text (component options top.name memoryMap).render ∧
      memoryMap.name = tag options.standard "memoryMap" ∧
      textOf options.standard "name" memoryMap.children = mapName top ∧
      partsIn options.standard [] memoryMap.children =
        (Occurrence.all walk top).flatMap (outline walk (.decide top))) ∧
    (fun result => result.2.warned) <$> (emitter options).run fs top destination =
      (fun _ => warnings) <$> fs.writeArtifact destination a ∧
    (fun result => result.1.map Report.warnings) <$> (emitter options).run fs top destination =
      (fun written => (written.map fun _ => warnings.length).mapError Stop.failed) <$>
        fs.writeArtifact destination a := by
  intro walk warnings
  obtain ⟨⟨hkind, hvalid⟩, _⟩ := (emitter options).produce_eq_ok_iff.1 h
  obtain ⟨htext, hwarns⟩ := eq_render_and_warns_of_produce h
  have hguards : (emitter options).Guards OpenTo OpenTo (fun _ => True) fun _ => True :=
    guards options trivial
  have hpassed := hguards.produce hkind hvalid (fun _ _ _ _ _ _ => trivial) destination
  rw [h] at hpassed
  have hall := ((emitter options).warns_opening top destination).trans hwarns
  rw [discards_map, List.nil_append] at hall
  refine ⟨⟨_, htext, rfl, textOf_name_memoryMap _ top, ?_⟩, ?_, ?_⟩
  · exact partsIn_memoryMap rfl hkind (Node.isValid_of_validate hvalid) fun m hm => (hpassed m hm).1
  · rw [Emitter.warned_run _ fs h, hall.warned_eq]
    rfl
  · rw [Emitter.warnings_run _ fs h, hall.warnings_eq]
    simp only [Nat.zero_add]
    rfl

/-- A map of two blocks. In the first lie an array of register files, a register array with
gaps, a memory and a register that is not present. -/
def splitMap : Node :=
  let bank : Node := { Node.regfile "bank" with array := some ⟨[2], 32⟩ }
  let ctrl : Node := (Node.reg "ctrl").addField { name := "en", lsb := 0, msb := 0 }
  let gaps : Node := { Node.reg "gaps" with offset := 64, array := some ⟨[2], 8⟩ }
  let ram : Node := { Node.mem "ram" 4 32 with offset := 128 }
  let old : Node := { Node.reg "old" with offset := 144 }
  let absent : Node := old.withProperty "ispresent" (.bool false)
  let rom : Node := { Node.mem "rom" 4 32 with offset := 4096 }
  let cpu : Node := ((Node.addrmap "cpu").addChild (bank.addChild ctrl)).addChild gaps
  ((Node.addrmap "soc").addChild ((cpu.addChild ram).addChild absent)).addChild rom

/-- The memory is an element as a block, and a warning inside one. -/
theorem export_mirrors_walk_of_split :
    ∃ memoryMap s,
      let options : IpxactOptions := { skipAbsent := true }
      let artifact : Artifact := .text (component options "soc" memoryMap).render
      let warnings := [
        "IP-XACT does not support register arrays whose stride (8) is larger than the " ++
          "register's size (4). Discarding 'soc.cpu.gaps'",
        "IP-XACT does not support 'mem' nodes that are nested in hierarchy. Discarding " ++
          "'soc.cpu.ram'"]
      (emitter options).produce splitMap ⟨"soc.xml"⟩ = (.ok artifact, s) ∧
        textOf .ieee2014 "name" memoryMap.children = "soc" ∧
        partsIn .ieee2014 [] memoryMap.children = [
          ⟨.addressBlock, ["cpu"], []⟩,
          ⟨.registerFile, ["cpu", "bank"], [2]⟩,
          ⟨.register, ["cpu", "bank", "ctrl"], []⟩,
          ⟨.field, ["cpu", "bank", "ctrl", "en"], []⟩,
          ⟨.addressBlock, ["rom"], []⟩] ∧
        (fun result => result.2.warned) <$>
            (emitter options).run Disk.fileSystem splitMap ⟨"soc.xml"⟩ =
          (fun _ => warnings) <$> Disk.fileSystem.writeArtifact ⟨"soc.xml"⟩ artifact := by
  have hok : ((emitter { skipAbsent := true }).produce splitMap ⟨"soc.xml"⟩).1.isOk = true := by
    decide +kernel
  rcases hproduce : (emitter { skipAbsent := true }).produce splitMap ⟨"soc.xml"⟩ with
    ⟨reason | a, s⟩
  · rw [hproduce] at hok
    cases hok
  · obtain ⟨⟨memoryMap, rfl, _, hname, hparts⟩, hwarned, _⟩ :=
      export_mirrors_walk Disk.fileSystem { skipAbsent := true } hproduce
    refine ⟨memoryMap, s, hproduce, hname.trans (by decide), ?_, ?_⟩
    · rw [hparts]
      decide
    · rw [hwarned]
      rfl

end RegisterMap.Ipxact
