import RegisterMap.Options
import RegisterMap.Text.Identifier
import RegisterMap.Uvm.Name
import RegisterMap.Uvm.Printer
import RegisterMap.Walk.Emitter

/-!
A register model with a class for every register, memory and container. An
array has a single class: its parent has a member with all the elements. The
blocks that are being built form a stack, and a block joins the finished ones
when everything in it has been met, so that children come before their parents.
-/

namespace RegisterMap.Uvm

structure State where
  registers : Array RegisterClass := #[]
  memories : Array MemoryClass := #[]
  blocks : Array BlockClass := #[]
  /-- The blocks being built, the innermost first and the model of the top last. -/
  stack : List BlockClass := []
  /-- The register whose fields are being met. -/
  register : Option RegisterClass := none
  /-- The class names in use. -/
  names : Std.TreeSet String := ∅

abbrev UvmM := ExportM State

def takeName (base suffix : String) : UvmM String := do
  let name := freeName (← .built).names base suffix
  .build fun s => { s with names := s.names.insert name }
  return name

/-- The identifier of an element, from its whole path. -/
def pathIdentifier (e : Element) : String := Identifier.systemVerilog e.path

/-- A change to the innermost block. -/
def inParent (change : BlockClass → BlockClass) : UvmM Unit := do
  if (← .built).stack.isEmpty then .fail (.fatal "no enclosing block")
  .build fun s => { s with stack := s.stack.modifyHead change }

/-- The class of a memory. -/
def takeMemoryClass (e : Element) : UvmM String := do
  let name ← takeName (pathIdentifier e) "mem"
  let memory : MemoryClass := {
    name, entries := e.node.memEntries?.getD 0, width := e.node.memWidth,
    rights := .ofAccess e.node.softwareAccess }
  .build fun s => { s with memories := s.memories.push memory }
  return name

/-- The class of a container, built while what is inside is met. -/
def takeBlockClass (e : Element) (inside : UvmM Unit) : UvmM BlockClass := do
  let name ← takeName (pathIdentifier e) "block"
  .build fun s => { s with stack := { name } :: s.stack }
  inside
  match (← .built).stack with
  | [] => .fail (.fatal "block stack underflow")
  | finished :: above =>
    .build fun s => { s with stack := above, blocks := s.blocks.push finished }
    return finished

def observing (width : Option Nat) (c : BlockClass) : BlockClass :=
  (width.map c.observeWidth).getD c

/-- A member of the innermost block. The offsets of its elements are listed, so
they must be words and not too many for a list. -/
def addMember (e : Element) (kind : MemberKind) (className : String) (rights : Rights)
    (width : Option Nat) : UvmM Unit := do
  unless e.node.isListable 0 do .stop .overflow
  let member : Member := {
    kind, name := Identifier.systemVerilog e.node.name, className, shape := e.node.array,
    offset := e.node.offset, rights }
  inParent fun parent => observing width (parent.addMember member)

/-- An address block as a member of the model, at its absolute address. -/
def addBlock (e : Element) (kind : MemberKind) (className : String) (rights : Rights)
    (width : Option Nat) : UvmM Unit :=
  let member : Member := {
    kind, name := Identifier.systemVerilog e.node.name, className, shape := none,
    offset := e.address, rights }
  inParent fun parent => observing width (parent.addMember member)

def addressBlock (e : Element) (inside : UvmM Unit) : UvmM Unit := do
  .resetBusWidth
  .info ("uvm: address block " ++ e.path)
  if e.node.kind = .mem then
    let className ← takeMemoryClass e
    addBlock e .memory className (.ofAccess e.node.softwareAccess) (some e.node.memWidth)
  else
    let finished ← takeBlockClass e inside
    addBlock e .block finished.name .rw (← .busWidth)

def registerMember (e : Element) (inside : UvmM Unit) : UvmM Unit := do
  let _ ← checkRegisterArray e
  let name ← takeName (pathIdentifier e) "reg"
  .build fun s => { s with register := some { name, width := e.node.regWidth } }
  inside
  match (← .built).register with
  | none => .fail (.fatal (e.path ++ ": register state lost"))
  | some finished =>
    .build fun s => { s with register := none, registers := s.registers.push finished }
    .observeBusWidth e.node.busWidth
    addMember e .register name finished.rights (some e.node.busWidth)

def fieldMember (f : Field) (access : AccessCode) (register : Element) : UvmM Unit := do
  match (← .built).register with
  | none => .fail (.fatal (register.path ++ ": field outside a register"))
  | some current =>
    let width ← .checked f.width?
    let member : FieldMember := {
      name := Identifier.systemVerilog f.name, width, lsb := f.lsb, access,
      isVolatile := f.isVolatile, reset := f.reset?,
      isReadable := f.softwareAccess.isReadable, isWritable := f.softwareAccess.isWritable }
    let grown := { current with fields := current.fields.push member }
    .build fun s => { s with register := some grown }

def packageName (options : UvmOptions) (top : String) : String :=
  options.package.getD (Identifier.systemVerilog top ++ "_reg_pkg")

def emitter (options : UvmOptions) : Emitter State where
  options := { skipAbsent := options.skipAbsent }
  splits := true
  initial := {}
  start context := do
    let name ← takeName (Identifier.systemVerilog context.top.name) "reg_model"
    .build fun s => { s with stack := { name } :: s.stack }
  block e inside := addressBlock e inside
  registerFile e _ inside := do
    let finished ← takeBlockClass e inside
    addMember e .block finished.name .rw finished.width
  register e _ inside := registerMember e inside
  memory e _ := do
    let className ← takeMemoryClass e
    addMember e .memory className (.ofAccess e.node.softwareAccess) none
  field f access register := fieldMember f access register
  finish context := do
    let s ← .built
    match s.stack with
    | [] => .fail (.fatal "top model missing")
    | model :: _ =>
      let package : Package := {
        name := packageName options context.top.name, top := context.top.name,
        registers := s.registers.toList, memories := s.memories.toList,
        blocks := s.blocks.toList, model }
      return .text package.render

end RegisterMap.Uvm
