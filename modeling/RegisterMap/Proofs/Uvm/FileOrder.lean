import Mathlib.Tactic.Common
import RegisterMap.Uvm.Printer

/-!
The classes of a package in the order of its file. A file declares registers,
then memories, then blocks, and the model of the top last; a class can use those
that have been declared before it.
-/

namespace RegisterMap.Uvm

/-- A class in the file: its name, the classes that it has members of, and its lines. -/
structure Declaration where
  name : String
  uses : List String
  lines : List String

/-- The fields of a register are of a class of the library. -/
def RegisterClass.declare (c : RegisterClass) : Declaration :=
  ⟨c.name, c.fields.toList.map fun _ => "uvm_reg_field", c.lines⟩

def MemoryClass.declare (c : MemoryClass) : Declaration := ⟨c.name, [], c.lines⟩

def BlockClass.declare (isTop : Bool) (c : BlockClass) : Declaration :=
  ⟨c.name, c.members.toList.map Member.className, c.lines isTop⟩

def Package.declarations (p : Package) : List Declaration :=
  p.registers.map RegisterClass.declare ++ p.memories.map MemoryClass.declare ++
    p.blocks.map (BlockClass.declare false) ++ [p.model.declare true]

/-- The lines in front of the first class. -/
def Package.opening (p : Package) : List String :=
  ["// UVM register model for '" ++ p.top ++ "'", "package " ++ p.name ++ ";",
    indented 1 "import uvm_pkg::*;", indented 1 "`include \"uvm_macros.svh\"", ""]

/-- A package is its declarations one after another, between a few lines of its own. -/
theorem Package.lines_eq (p : Package) :
    p.lines = p.opening ++ p.declarations.flatMap Declaration.lines ++ ["endpackage"] := by
  simp only [declarations, List.flatMap_append, List.flatMap_map, List.flatMap_singleton,
    ← List.append_assoc]
  rfl

/-- Every class that is used is known already or is declared before. -/
def DeclaredInOrder (known : List String) : List Declaration → Prop
  | [] => True
  | d :: rest => (∀ used ∈ d.uses, used ∈ known) ∧ DeclaredInOrder (known ++ [d.name]) rest

theorem declaredInOrder_append {known : List String} {first second : List Declaration} :
    DeclaredInOrder known (first ++ second) ↔
      DeclaredInOrder known first ∧
        DeclaredInOrder (known ++ first.map Declaration.name) second := by
  induction first generalizing known with
  | nil => simp [DeclaredInOrder]
  | cons d rest ih =>
    simp only [DeclaredInOrder, ih, List.map_cons, List.append_assoc,
      List.cons_append, List.nil_append, and_assoc]

theorem DeclaredInOrder.mono {known known' : List String} {ds : List Declaration}
    (h : DeclaredInOrder known ds) (hknown : ∀ name ∈ known, name ∈ known') :
    DeclaredInOrder known' ds := by
  induction ds generalizing known known' with
  | nil => trivial
  | cons d rest ih =>
    refine ⟨fun used hused => hknown used (h.1 used hused), ih h.2 fun name hname => ?_⟩
    rcases List.mem_append.1 hname with hname | hname
    · exact List.mem_append_left _ (hknown name hname)
    · exact List.mem_append_right _ hname

theorem declaredInOrder_of_known {known : List String} {ds : List Declaration}
    (h : ∀ d ∈ ds, ∀ used ∈ d.uses, used ∈ known) : DeclaredInOrder known ds := by
  induction ds generalizing known with
  | nil => trivial
  | cons d rest ih =>
    refine ⟨h d List.mem_cons_self, ih fun c hc used hused => ?_⟩
    exact List.mem_append_left _ (h c (List.mem_cons_of_mem d hc) used hused)

/-- What is used is known from the start or declared somewhere. -/
theorem DeclaredInOrder.mem_of_used {known : List String} {ds : List Declaration}
    (h : DeclaredInOrder known ds) :
    ∀ d ∈ ds, ∀ used ∈ d.uses, used ∈ known ∨ used ∈ ds.map Declaration.name := by
  induction ds generalizing known with
  | nil => simp
  | cons first rest ih =>
    rw [List.forall_mem_cons]
    refine ⟨fun used hused => Or.inl (h.1 used hused), fun d hd used hused => ?_⟩
    rw [List.map_cons, List.mem_cons]
    rcases ih h.2 d hd used hused with hknown | hlater
    · rw [List.mem_append, List.mem_singleton] at hknown
      tauto
    · exact Or.inr (Or.inr hlater)

theorem declaredInOrder_registers {known : List String} (hknown : "uvm_reg_field" ∈ known)
    (classes : List RegisterClass) :
    DeclaredInOrder known (classes.map RegisterClass.declare) := by
  apply declaredInOrder_of_known
  intro d hd used hused
  obtain ⟨c, _, rfl⟩ := List.mem_map.1 hd
  obtain ⟨_, _, rfl⟩ := List.mem_map.1 hused
  exact hknown

theorem declaredInOrder_memories (known : List String) (classes : List MemoryClass) :
    DeclaredInOrder known (classes.map MemoryClass.declare) := by
  apply declaredInOrder_of_known
  intro d hd used hused
  obtain ⟨c, _, rfl⟩ := List.mem_map.1 hd
  cases hused

end RegisterMap.Uvm
