import RegisterMap.Text.Hex
import RegisterMap.Uvm.Class
import RegisterMap.Walk.Element

/-!
The text of a package. A class is printed as its declarations, its constructor
and its build function, each line indented by its depth.
-/

namespace RegisterMap.Uvm

def bit (b : Bool) : String := if b then "1" else "0"

/-- A line at a depth. -/
def indented (depth : Nat) (line : String) : String :=
  String.ofList (List.replicate (2 * depth) ' ') ++ line

/-- The declarations and the blank line behind them, or nothing. -/
def declarationLines (declarations : List String) : List String :=
  if declarations.isEmpty then [] else declarations.map (indented 2) ++ [""]

/-- A class with its constructor, from the arguments behind the instance's name;
a build function is absent in a memory. -/
def classLines (name base arguments : String) (declarations : List String)
    (build : Option (List String)) : List String :=
  [indented 1 ("class " ++ name ++ " extends " ++ base ++ ";"),
    indented 2 ("`uvm_object_utils(" ++ name ++ ")"),
    ""] ++
  declarationLines declarations ++
  [indented 2 ("function new(string name = \"" ++ name ++ "\");"),
    indented 3 ("super.new(name, " ++ arguments ++ ");"),
    indented 2 "endfunction"] ++
  (match build with
    | none => []
    | some lines =>
      ["", indented 2 "virtual function void build();"] ++
      lines.map (indented 3) ++
      [indented 2 "endfunction"]) ++
  [indented 1 "endclass", ""]

namespace FieldMember

def declaration (f : FieldMember) : String := "rand uvm_reg_field " ++ f.name ++ ";"

/-- Creating and configuring a field, which may be the only one. -/
def buildLines (isOnly : Bool) (f : FieldMember) : List String :=
  ["this." ++ f.name ++ " = uvm_reg_field::type_id::create(\"" ++ f.name ++
      "\", null, get_full_name());",
    "this." ++ f.name ++ ".configure(" ++ ", ".intercalate
      ["this", toString f.width, toString f.lsb, "\"" ++ f.access.word ++ "\"",
        bit f.isVolatile, Text.hexLiteral (f.reset.getD 0), bit f.reset.isSome, bit f.isWritable,
        bit isOnly] ++ ");"]

end FieldMember

def RegisterClass.lines (c : RegisterClass) : List String :=
  let fields := c.fields.toList
  classLines c.name "uvm_reg" (toString c.width ++ ", UVM_NO_COVERAGE")
    (fields.map FieldMember.declaration)
    (some (fields.flatMap (FieldMember.buildLines (fields.length == 1))))

def MemoryClass.lines (c : MemoryClass) : List String :=
  classLines c.name "uvm_mem"
    (", ".intercalate [toString c.entries, toString c.width, "\"" ++ c.rights.word ++ "\"",
      "UVM_NO_COVERAGE"])
    [] none

namespace Member

def dimensions (m : Member) : List Nat := (m.shape.map (·.dimensions)).getD []

def declaration (m : Member) : String :=
  (if m.kind = .memory then "" else "rand ") ++ m.className ++ " " ++ m.name ++
    subscripts m.dimensions ++ ";"

/-- What is called on an instance once it is created. -/
def configureCalls (m : Member) : List String :=
  match m.kind with
  | .register => [".configure(this, null, \"\");", ".build();"]
  | .block => [".configure(this, \"\");", ".build();"]
  | .memory => [".configure(this, \"\");"]

/-- Creating the instance, or in a loop all instances of an array. -/
def createLines (m : Member) : List String :=
  let counters := (List.range m.dimensions.length).map fun i => "i" ++ toString i
  if counters.isEmpty then
    let handle := "this." ++ m.name
    (handle ++ " = " ++ m.className ++ "::type_id::create(\"" ++ m.name ++ "\");") ::
      m.configureCalls.map (handle ++ ·)
  else
    let handle := "this." ++ m.name ++ String.join (counters.map fun v => "[" ++ v ++ "]")
    let pattern := String.join (counters.map fun _ => "[%0d]")
    let listed := ", ".intercalate counters
    ["foreach (this." ++ m.name ++ "[" ++ listed ++ "]) begin"] ++
    ((handle ++ " = " ++ m.className ++ "::type_id::create($sformatf(\"" ++ m.name ++ pattern ++
        "\", " ++ listed ++ "));") :: m.configureCalls.map (handle ++ ·)).map (indented 1) ++
    ["end"]

/-- Mapping one instance at its offset. -/
def mapLine (m : Member) (handle : String) (offset : Nat) : String :=
  match m.kind with
  | .register =>
    "this.default_map.add_reg(" ++ handle ++ ", " ++ Text.hexLiteral offset ++ ", \"" ++
      m.rights.word ++ "\");"
  | .block =>
    "this.default_map.add_submap(" ++ handle ++ ".default_map, " ++ Text.hexLiteral offset ++ ");"
  | .memory =>
    "this.default_map.add_mem(" ++ handle ++ ", " ++ Text.hexLiteral offset ++ ", \"" ++
      m.rights.word ++ "\");"

/-- Mapping every element at its own offset. -/
def mapLines (m : Member) : List String :=
  (List.range m.count).map fun linear =>
    m.mapLine ("this." ++ m.name ++ subscripts (m.indexOf linear)) (m.offsetOf linear)

def buildLines (m : Member) : List String := m.createLines ++ m.mapLines

end Member

/-- A block class; the model of the top locks itself when it is built. -/
def BlockClass.lines (isTop : Bool) (c : BlockClass) : List String :=
  let members := c.members.toList
  classLines c.name "uvm_reg_block" "UVM_NO_COVERAGE" (members.map Member.declaration)
    (some (
      ["this.default_map = create_map(\"default_map\", 0, " ++ toString c.mapBytes ++
        ", UVM_LITTLE_ENDIAN);"] ++
      members.flatMap Member.buildLines ++
      (if isTop then ["lock_model();"] else [])))

def Package.lines (p : Package) : List String :=
  ["// UVM register model for '" ++ p.top ++ "'",
    "package " ++ p.name ++ ";",
    indented 1 "import uvm_pkg::*;",
    indented 1 "`include \"uvm_macros.svh\"",
    ""] ++
  p.registers.flatMap RegisterClass.lines ++
  p.memories.flatMap MemoryClass.lines ++
  p.blocks.flatMap (BlockClass.lines false) ++
  p.model.lines true ++
  ["endpackage"]

def Package.render (p : Package) : String := String.join (p.lines.map (· ++ "\n"))

end RegisterMap.Uvm
