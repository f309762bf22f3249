import RegisterMap.Proofs.Occurrence
import RegisterMap.Text.Identifier
import RegisterMap.Uvm.Printer

/-!
What a package maps when its model is built. The model lies at address zero. An
instance of a block puts each of its members at an offset from its own address: a
register or a memory is mapped there, and a block is entered, in the class that is
declared under the name. A class is declared after those that it has members of, so
elaborating goes back in the list of classes.
-/

namespace RegisterMap.Uvm

/-- The path of a register or a memory and the address it is mapped to. -/
abbrev Mapping := List Instance × Nat

/-- The subscripts and the offset of every element of a member. -/
def Member.places (m : Member) : List (List Nat × Nat) :=
  (List.range m.count).map fun linear => (m.indexOf linear, m.offsetOf linear)

theorem Member.places_of_single {m : Member} (h : m.shape = none) :
    m.places = [([], m.offset)] := by
  simp [places, count, indexOf, offsetOf, elementAddress, h]

/-- A build function has one line for each element, which says its place. -/
theorem Member.mapLines_eq (m : Member) :
    m.mapLines =
      m.places.map fun place => m.mapLine ("this." ++ m.name ++ subscripts place.1) place.2 := by
  rw [mapLines, places, List.map_map]
  rfl

/-- What a member maps in an instance of its block, from the path and the address of
that instance. -/
def Member.mappings (enter : String → List Instance → Nat → List Mapping)
    (path : List Instance) (base : Nat) (m : Member) : List Mapping :=
  m.places.flatMap fun place =>
    let here := path ++ [(m.name, place.1)]
    let address := base + place.2
    match m.kind with
    | .block => enter m.className here address
    | .register | .memory => [(here, address)]

/-- What an instance of a class maps, by the name of the class, among some classes
where the latest comes first. -/
def mapped : List BlockClass → String → List Instance → Nat → List Mapping
  | [], _, _, _ => []
  | c :: earlier, name, path, base =>
    if c.name = name then c.members.toList.flatMap (Member.mappings (mapped earlier) path base)
    else mapped earlier name path base

/-- All that is mapped in the model of a package. -/
def Package.mappings (p : Package) : List Mapping :=
  p.model.members.toList.flatMap (Member.mappings (mapped p.blocks.reverse) [] 0)

/-- Classes with other names are passed over. -/
theorem mapped_append_of_fresh {later earlier : List BlockClass} {name : String}
    (h : ∀ c ∈ later, c.name ≠ name) : mapped (later ++ earlier) name = mapped earlier name := by
  induction later with
  | nil => rfl
  | cons c rest ih =>
    obtain ⟨hc, hrest⟩ := List.forall_mem_cons.1 h
    funext path base
    rw [List.cons_append, mapped, if_neg hc, ih hrest]

theorem Member.mappings_congr {enter enter' : String → List Instance → Nat → List Mapping}
    {m : Member} (h : m.kind = .block → enter m.className = enter' m.className)
    (path : List Instance) (base : Nat) :
    m.mappings enter path base = m.mappings enter' path base := by
  unfold mappings
  cases hkind : m.kind with
  | block => simp only [h hkind]
  | register => rfl
  | memory => rfl

/-- An element as an instance of a member. -/
abbrev instanceOf (e : Element) : Instance := e.toInstance Identifier.systemVerilog

/-- The instances that lead from the model to an occurrence. -/
abbrev pathOf (explosion : Explosion) (o : Occurrence) : List Instance :=
  o.instances Identifier.systemVerilog explosion

/-- What maps an occurrence where the walk meets it. -/
abbrev mappingOf (explosion : Explosion) (o : Occurrence) : Mapping :=
  o.placement Identifier.systemVerilog explosion

/-- A member that stands for a node maps an instance for every element of the node. -/
theorem mappings_eq_ofChild {options : WalkOptions} {n : Node} {m : Member}
    (hmet : n.isSkipped options = false) (hname : m.name = Identifier.systemVerilog n.name)
    (hshape : m.shape = n.array) (hoffset : m.offset = n.offset)
    (enter : String → List Instance → Nat → List Mapping) (explosion : Explosion)
    (o : Occurrence) :
    m.mappings enter (pathOf explosion o) o.element.address =
      (o.element.ofChild options.unrolled n).flatMap fun e =>
        match m.kind with
        | .block => enter m.className (pathOf explosion (o.inside e)) e.address
        | .register | .memory => [mappingOf explosion (o.inside e)] := by
  have helements := Occurrence.flatMap_ofChild hmet Identifier.systemVerilog explosion o
    fun path address =>
      match m.kind with
      | .block => enter m.className path address
      | .register | .memory => [(path, address)]
  have hcount : m.count = n.elementCount := by rw [Member.count, hshape, Node.elementCount]
  have hindex (linear : Nat) : m.indexOf linear = n.elementIndex linear := by
    rw [Member.indexOf, hshape, Node.elementIndex]
  have hplace (linear : Nat) : o.element.address + m.offsetOf linear =
      o.element.address + n.offset + linear * n.elementStride := by
    rw [Member.offsetOf, hshape, hoffset, elementAddress, Nat.zero_add, ← Nat.add_assoc,
      Node.elementStride]
  rw [Member.mappings, Member.places, List.flatMap_map, hcount]
  simp only [hname, hindex, hplace]
  exact helements.symm

end RegisterMap.Uvm
