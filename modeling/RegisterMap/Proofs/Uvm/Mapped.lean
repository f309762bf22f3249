import Mathlib.Data.List.Induction
import RegisterMap.Proofs.Uvm.Declared

/-!
The model of a package, elaborated from its text. The lines of the text are statements, and
those behind the opening of a class up to the next one are its body. To build an instance of
a class its body is gone through: each instance that is mapped lies at its offset, and one
of a block is entered, in the class that was last created before. A package maps in this way
what its members say, wherever the lines in front of its first class come from.
-/

namespace RegisterMap.Uvm

open Text

/-! Reading a text. -/

/-- The statements among the lines of a text. -/
def statementsOf (text : String) : List Statement :=
  ((splitAt '\n' text.toList).map String.ofList).filterMap Statement.ofLine?

/-- The statements in front of the first class, and the body of each class behind its name. -/
def bodies : List Statement → List Statement × List (String × List Statement)
  | [] => ([], [])
  | .opens name :: rest => ([], (name, (bodies rest).1) :: (bodies rest).2)
  | statement :: rest => (statement :: (bodies rest).1, (bodies rest).2)

/-- What a body maps in an instance of its class, from the path and the address of that
instance, with the class that was last created. -/
def mappedBy (enter : String → List Instance → Nat → List Mapping) (path : List Instance)
    (base : Nat) : String → List Statement → List Mapping
  | _, [] => []
  | _, .creates className _ :: rest => mappedBy enter path base className rest
  | created, .maps kind handle index offset :: rest =>
    let here := path ++ [(handle, index)]
    let address := base + offset
    (match kind with
      | .block => enter created here address
      | .register | .memory => [(here, address)]) ++ mappedBy enter path base created rest
  | created, .opens _ :: rest | created, .declares _ _ _ :: rest =>
    mappedBy enter path base created rest

/-- What an instance of a class maps, among some bodies where the latest comes first. -/
def elaborated : List (String × List Statement) → String → List Instance → Nat → List Mapping
  | [], _, _, _ => []
  | (opened, body) :: earlier, name, path, base =>
    if opened = name then mappedBy (elaborated earlier) path base "" body
    else elaborated earlier name path base

/-- What the model of a text maps, which lies at address zero. -/
def elaborate (text model : String) : List Mapping :=
  elaborated (bodies (statementsOf text)).2.reverse model [] 0

/-! Bodies. -/

theorem bodies_append {statements : List Statement} (h : (bodies statements).1 = [])
    (front : List Statement) :
    bodies (front ++ statements) =
      ((bodies front).1, (bodies front).2 ++ (bodies statements).2) := by
  induction front with
  | nil => exact Prod.ext h rfl
  | cons first rest ih =>
    cases first <;> simp [bodies, ih]

/-- A body goes on up to the next class. -/
theorem bodies_opens {body statements : List Statement}
    (hbody : ∀ name, .opens name ∉ body) (h : (bodies statements).1 = []) (name : String) :
    bodies (.opens name :: (body ++ statements)) = ([], (name, body) :: (bodies statements).2) := by
  have hinside : bodies body = (body, []) := by
    induction body with
    | nil => rfl
    | cons first rest ih =>
      have hrest := ih fun name hmem => hbody name (List.mem_cons_of_mem first hmem)
      cases first with
      | opens other => exact absurd List.mem_cons_self (hbody other)
      | declares | creates | maps => simp [bodies, hrest]
  simp [bodies, bodies_append h, hinside]

/-- Classes one after another. -/
theorem bodies_flatMap {α : Type} (name : α → String) (body : α → List Statement)
    {classes : List α} {statements : List Statement}
    (hbodies : ∀ a ∈ classes, ∀ name, .opens name ∉ body a) (h : (bodies statements).1 = []) :
    bodies (classes.flatMap (fun a => .opens (name a) :: body a) ++ statements) =
      ([], classes.map (fun a => (name a, body a)) ++ (bodies statements).2) := by
  induction classes with
  | nil => exact Prod.ext h rfl
  | cons a rest ih =>
    obtain ⟨hfirst, hrest⟩ := List.forall_mem_cons.1 hbodies
    have hmore := ih hrest
    rw [List.flatMap_cons, List.append_assoc, List.cons_append,
      bodies_opens hfirst (congrArg Prod.fst hmore), hmore]
    rfl

/-! The lines of a package. -/

theorem statementsOf_break (front rest : String) :
    statementsOf (front ++ "\n" ++ rest) = statementsOf front ++ statementsOf rest := by
  have hchars : (front ++ "\n" ++ rest).toList = front.toList ++ '\n' :: rest.toList := by simp
  rw [statementsOf, hchars, splitAt_append_sep, List.map_append, List.filterMap_append]
  rfl

/-- Lines without a break in them are lines of the text. -/
theorem statementsOf_lines {lines : List String} {statements : List Statement}
    (h : Reads lines statements) (rest : String) :
    statementsOf (String.join (lines.map (· ++ "\n")) ++ rest) =
      statements ++ statementsOf rest := by
  rw [← h.statements_eq]
  have hlines := h.noBreak
  clear h
  induction lines with
  | nil => simp
  | cons line more ih =>
    obtain ⟨hline, hmore⟩ := List.forall_mem_cons.1 hlines
    have htext : String.join ((line :: more).map (· ++ "\n")) ++ rest =
        line ++ "\n" ++ (String.join (more.map (· ++ "\n")) ++ rest) := by
      simp [String.append_assoc]
    have hstatement : statementsOf line = [line].filterMap Statement.ofLine? := by
      rw [statementsOf, splitAt_of_not_mem hline, List.map_singleton, String.ofList_toList]
    rw [htext, statementsOf_break, ih hmore, hstatement, ← List.append_assoc,
      ← List.filterMap_append]
    rfl

/-- The bodies of the classes of a package that have no members of other classes. -/
def Package.leaves (p : Package) : List (String × List Statement) :=
  p.registers.map (fun c => (c.name, c.body)) ++ p.memories.map fun c => (c.name, [])

/-- The bodies of the classes of a package, in the order of its file. -/
def Package.bodies (p : Package) : List (String × List Statement) :=
  p.leaves ++ (p.blocks ++ [p.model]).map fun c => (c.name, c.body)

/-- What the classes of a package say. -/
def Package.statements (p : Package) : List Statement :=
  p.registers.flatMap (fun c => .opens c.name :: c.body) ++
    (p.memories.flatMap (fun c => .opens c.name :: []) ++
      ((p.blocks ++ [p.model]).flatMap (fun c => .opens c.name :: c.body) ++ []))

theorem Package.IsNamed.reads {p : Package} (h : p.IsNamed) :
    Reads (p.declarations.flatMap Declaration.lines) p.statements := by
  have hregisters : Reads (p.registers.flatMap RegisterClass.lines)
      (p.registers.flatMap fun c => .opens c.name :: c.body) :=
    .flatMap fun c hc => reads_registerClass (h.registers c hc).1 (h.registers c hc).2
  have hmemories : Reads (p.memories.flatMap MemoryClass.lines)
      (p.memories.flatMap fun c => .opens c.name :: []) :=
    .flatMap fun c hc => reads_memoryClass (h.memories c hc)
  have hblocks : Reads (p.blocks.flatMap (BlockClass.lines false))
      (p.blocks.flatMap fun c => .opens c.name :: c.body) :=
    .flatMap fun c hc =>
      have hnamed := h.blocks c (List.mem_append_left _ hc)
      reads_blockClass hnamed.1 hnamed.2 false
  have hmodel : Reads (p.model.lines true) (.opens p.model.name :: p.model.body) :=
    have hnamed := h.blocks p.model (by simp)
    reads_blockClass hnamed.1 hnamed.2 true
  have hall := hregisters.append (hmemories.append (hblocks.append hmodel))
  simpa [Package.declarations, Package.statements, List.flatMap_map, RegisterClass.declare,
    MemoryClass.declare, BlockClass.declare] using hall

theorem bodies_statements (p : Package) : Uvm.bodies p.statements = ([], p.bodies) := by
  have hregister (c : RegisterClass) (name : String) : .opens name ∉ c.body := by
    simp [RegisterClass.body]
  have hblock (c : BlockClass) (name : String) : .opens name ∉ c.body := by
    simp [BlockClass.body]
  have hnone : (Uvm.bodies []).1 = [] := rfl
  have hblocks := bodies_flatMap BlockClass.name BlockClass.body
    (fun c (_ : c ∈ p.blocks ++ [p.model]) => hblock c) hnone
  have hmemories := bodies_flatMap MemoryClass.name (fun _ => [])
    (fun c (_ : c ∈ p.memories) _ => List.not_mem_nil) (congrArg Prod.fst hblocks)
  have hregisters := bodies_flatMap RegisterClass.name RegisterClass.body
    (fun c (_ : c ∈ p.registers) => hregister c) (congrArg Prod.fst hmemories)
  rw [Package.statements, hregisters, hmemories, hblocks, Package.bodies, Package.leaves,
    List.append_assoc]
  simp [Uvm.bodies]

/-- The text of a package has the bodies of its classes, behind those that the lines in
front of its first class may hold. -/
theorem bodies_render {p : Package} (h : p.IsNamed) :
    ∃ front, (bodies (statementsOf p.render)).2 = front ++ p.bodies := by
  let opening := String.join ((p.opening.take 4).map (· ++ "\n"))
  let classes := String.join ((p.declarations.flatMap Declaration.lines).map (· ++ "\n"))
  have htext : p.render = opening ++ "\n" ++ (classes ++ "endpackage\n") := by
    apply String.toList_inj.1
    rw [Package.render, Package.lines_eq]
    simp [opening, classes, Package.opening]
  have hend : statementsOf "endpackage\n" = [] := by decide
  have hstatements : statementsOf p.render = statementsOf opening ++ p.statements := by
    rw [htext, statementsOf_break, statementsOf_lines h.reads, hend, List.append_nil]
  refine ⟨(bodies (statementsOf opening)).2, ?_⟩
  rw [hstatements, bodies_append (congrArg Prod.fst (bodies_statements p)), bodies_statements]

/-! What a body maps. -/

section

variable {enter : String → List Instance → Nat → List Mapping} {path : List Instance} {base : Nat}

theorem mappedBy_declares {α : Type} (className handle : α → String) (dimensions : α → List Nat)
    (items : List α) (created : String) (rest : List Statement) :
    mappedBy enter path base created
      (items.map (fun a => .declares (className a) (handle a) (dimensions a)) ++ rest) =
        mappedBy enter path base created rest := by
  induction items with
  | nil => rfl
  | cons a more ih => exact ih

theorem mappedBy_register (c : RegisterClass) : mappedBy enter path base "" c.body = [] := by
  have hcreates (fields : List FieldMember) (created : String) :
      mappedBy enter path base created (fields.map fun f => .creates "uvm_reg_field" f.name) =
        [] := by
    induction fields generalizing created with
    | nil => rfl
    | cons f more ih => exact ih "uvm_reg_field"
  rw [RegisterClass.body, mappedBy_declares]
  exact hcreates c.fields.toList ""

/-- The lines behind the creation of a member map its elements one by one. -/
theorem mappedBy_places (m : Member) (places : List (List Nat × Nat)) (rest : List Statement) :
    mappedBy enter path base m.className
      (places.map (fun place => .maps m.kind m.name place.1 place.2) ++ rest) =
        (places.flatMap fun place =>
          match m.kind with
          | .block => enter m.className (path ++ [(m.name, place.1)]) (base + place.2)
          | .register | .memory => [(path ++ [(m.name, place.1)], base + place.2)]) ++
            mappedBy enter path base m.className rest := by
  induction places with
  | nil => rfl
  | cons place more ih =>
    rw [List.flatMap_cons, List.append_assoc, ← ih]
    rfl

theorem mappedBy_members (members : List Member) (created : String) :
    mappedBy enter path base created
      (members.flatMap fun m => .creates m.className m.name ::
        m.places.map fun place => .maps m.kind m.name place.1 place.2) =
          members.flatMap (Member.mappings enter path base) := by
  induction members generalizing created with
  | nil => rfl
  | cons m more ih =>
    rw [List.flatMap_cons, List.cons_append, mappedBy, mappedBy_places, ih, List.flatMap_cons]
    rfl

theorem mappedBy_block (c : BlockClass) :
    mappedBy enter path base "" c.body =
      c.members.toList.flatMap (Member.mappings enter path base) := by
  rw [BlockClass.body, mappedBy_declares, mappedBy_members]

end

/-! Elaborating. -/

/-- Classes without members map nothing, whatever is declared before them. -/
theorem elaborated_leaf {leaves : List (String × List Statement)}
    (hleaves : ∀ leaf ∈ leaves, ∀ enter path base, mappedBy enter path base "" leaf.2 = [])
    {name : String} (hname : name ∈ leaves.map Prod.fst)
    (earlier : List (String × List Statement)) (path : List Instance) (base : Nat) :
    elaborated (leaves ++ earlier) name path base = [] := by
  induction leaves with
  | nil => cases hname
  | cons leaf more ih =>
    obtain ⟨hfirst, hrest⟩ := List.forall_mem_cons.1 hleaves
    rw [List.cons_append, elaborated]
    split
    case isTrue => exact hfirst _ path base
    case isFalse hne =>
      rw [List.map_cons, List.mem_cons] at hname
      exact ih hrest (hname.resolve_left fun heq => hne heq.symm)

/-- Blocks whose members are of classes that are declared before them are elaborated as
their members say. -/
theorem elaborated_blocks {earlier : List (String × List Statement)} {leaves : List String}
    (hleaves : ∀ name ∈ leaves, ∀ path base, elaborated earlier name path base = [])
    {blocks : List BlockClass}
    (horder : DeclaredInOrder leaves (blocks.map (BlockClass.declare false))) :
    ∀ name ∈ leaves ++ blocks.map BlockClass.name,
      elaborated (blocks.reverse.map (fun c => (c.name, c.body)) ++ earlier) name =
        mapped blocks.reverse name := by
  induction blocks using List.reverseRecOn with
  | nil =>
    intro name hname
    funext path base
    exact hleaves name (by simpa using hname) path base
  | append_singleton blocks c ih =>
    rw [List.map_append, declaredInOrder_append] at horder
    obtain ⟨hbefore, huses, -⟩ := horder
    intro name hname
    funext path base
    rw [List.reverse_append, List.reverse_singleton, List.singleton_append, List.map_cons,
      List.cons_append, elaborated, mapped]
    split
    case isTrue =>
      rw [mappedBy_block]
      refine List.flatMap_congr fun m hm => Member.mappings_congr (fun _ => ?_) path base
      apply ih hbefore
      have hused := huses m.className (List.mem_map_of_mem hm)
      rwa [List.map_map] at hused
    case isFalse hne =>
      have hearlier : name ∈ leaves ++ blocks.map BlockClass.name := by
        rw [List.map_append, ← List.append_assoc, List.mem_append] at hname
        exact hname.resolve_right fun hlast => hne (List.mem_singleton.1 hlast).symm
      rw [ih hbefore name hearlier]

theorem mappedBy_leaf {p : Package} :
    ∀ leaf ∈ p.leaves, ∀ enter path base, mappedBy enter path base "" leaf.2 = [] := by
  intro leaf hleaf enter path base
  rcases List.mem_append.1 hleaf with hregister | hmemory
  · obtain ⟨c, _, rfl⟩ := List.mem_map.1 hregister
    exact mappedBy_register c
  · obtain ⟨c, _, rfl⟩ := List.mem_map.1 hmemory
    rfl

/-- The text of a package maps what its members say. -/
theorem elaborate_render {p : Package} (h : p.IsNamed)
    (horder : DeclaredInOrder (p.leaves.map Prod.fst)
      ((p.blocks ++ [p.model]).map (BlockClass.declare false))) :
    elaborate p.render p.model.name = p.mappings := by
  obtain ⟨front, hbodies⟩ := bodies_render h
  have hleaves : ∀ name ∈ p.leaves.map Prod.fst, ∀ path base,
      elaborated (p.leaves.reverse ++ front.reverse) name path base = [] := by
    intro name hname
    exact elaborated_leaf (fun leaf hleaf => mappedBy_leaf leaf (List.mem_reverse.1 hleaf))
      (by rwa [List.map_reverse, List.mem_reverse]) front.reverse
  have hmodel : p.model.name ∈
      p.leaves.map Prod.fst ++ (p.blocks ++ [p.model]).map BlockClass.name := by simp
  have hreverse : (bodies (statementsOf p.render)).2.reverse =
      (p.blocks ++ [p.model]).reverse.map (fun c => (c.name, c.body)) ++
        (p.leaves.reverse ++ front.reverse) := by
    rw [hbodies, Package.bodies, List.reverse_append, List.reverse_append, ← List.map_reverse,
      List.append_assoc]
  rw [elaborate, hreverse, elaborated_blocks hleaves horder _ hmodel, List.reverse_append,
    List.reverse_singleton, List.singleton_append, mapped, if_pos rfl]
  rfl

/-- The blocks of the package that an export has built come behind the classes of their
members, and the model behind all others. -/
theorem order_of_produce {options : UvmOptions} {top : Node} {destination : Path} {a : Artifact}
    {s : Session State} (h : (emitter options).produce top destination = (.ok a, s))
    {package : Package} (hwritten : s.state.written? options top = some package) :
    DeclaredInOrder (package.leaves.map Prod.fst)
      ((package.blocks ++ [package.model]).map (BlockClass.declare false)) := by
  obtain ⟨hidle, -⟩ := idle_of_produce h
  obtain ⟨model, hhead, rfl⟩ := Option.map_eq_some_iff.1 hwritten
  obtain ⟨above, hstack⟩ := List.head?_eq_some_iff.1 hhead
  have hclosed := (hidle.uses.close hstack).blocks
  rw [Array.toList_push] at hclosed
  rwa [Package.leaves, List.map_append, List.map_map, List.map_map]

/-- The text that an export writes is elaborated from the class of its model to a map that has
every register and memory of the walk at its address, in the order of the walk. Each block
declares its members with their dimensions, and creates and maps them one after another. The
classes of blocks have names of their own, and each array of members is mapped once at each of
its indices. -/
theorem export_maps_walk (options : UvmOptions) {top : Node} {destination : Path} {a : Artifact}
    {s : Session State} (h : (emitter options).produce top destination = (.ok a, s)) :
    ∃ text, a = .text text ∧
      elaborate text (Identifier.systemVerilog top.name ++ "_reg_model") =
        ((Occurrence.all { skipAbsent := options.skipAbsent, unroll := true } top).filter
          Occurrence.isLeaf).map (mappingOf (.decide top)) ∧
      ∃ package : Package, text = package.render ∧
        package.model.name = Identifier.systemVerilog top.name ++ "_reg_model" ∧
        ((package.model :: package.blocks).map BlockClass.name).Nodup ∧
        package.mappings = elaborate text package.model.name ∧
        ∀ c ∈ package.model :: package.blocks,
          (∀ isTop, Reads (c.lines isTop) (.opens c.name ::
            (c.members.toList.map (fun m => .declares m.className m.name m.dimensions) ++
              c.members.toList.flatMap fun m => .creates m.className m.name ::
                m.places.map fun place => .maps m.kind m.name place.1 place.2))) ∧
          ∀ m ∈ c.members.toList, ∀ shape, m.shape = some shape →
            (m.places.map Prod.fst).Nodup ∧
              ∀ index, index ∈ m.places.map Prod.fst ↔
                List.Forall₂ (· < ·) index shape.dimensions := by
  obtain ⟨package, hwritten, hnames, hmappings, hsound⟩ := mappings_of_produce h
  obtain ⟨htext, hmodel, _, _, hnamed⟩ := declared_of_produce h hwritten
  have helaborated := elaborate_render hnamed (order_of_produce h hwritten)
  refine ⟨package.render, htext, ?_, package, rfl, hmodel, hnames, helaborated.symm, ?_⟩
  · rw [← hmappings, ← helaborated, hmodel, modelName]
  · intro c hc
    have hwords := hnamed.blocks c (by simpa [or_comm] using hc)
    exact ⟨reads_blockClass hwords.1 hwords.2,
      fun m hm shape hshape => (hsound c hc m hm).indices_places hshape⟩

/-- An array of register files with an array of registers in each. -/
def bankedMap : Node :=
  (Node.addrmap "chip").addChild
    ({ Node.regfile "bank" with offset := 16, array := some ⟨[2], 32⟩ }.addChild
      { Node.reg "ctrl" with offset := 8, array := some ⟨[2], 4⟩ })

/-- The registers of every bank are mapped in it. -/
theorem export_maps_walk_of_banks :
    ∃ text s, (emitter {}).produce bankedMap ⟨"chip.sv"⟩ = (.ok (.text text), s) ∧
      elaborate text "chip_reg_model" =
        [([("chip", []), ("bank", [0]), ("ctrl", [0])], 24),
          ([("chip", []), ("bank", [0]), ("ctrl", [1])], 28),
          ([("chip", []), ("bank", [1]), ("ctrl", [0])], 56),
          ([("chip", []), ("bank", [1]), ("ctrl", [1])], 60)] := by
  have hok : ((emitter {}).produce bankedMap ⟨"chip.sv"⟩).1.isOk = true := by decide +kernel
  rcases hproduce : (emitter {}).produce bankedMap ⟨"chip.sv"⟩ with ⟨reason | a, s⟩
  · rw [hproduce] at hok
    cases hok
  · obtain ⟨text, rfl, hmapped, _⟩ := export_maps_walk {} hproduce
    exact ⟨text, s, rfl, hmapped.trans (by decide)⟩

end RegisterMap.Uvm
