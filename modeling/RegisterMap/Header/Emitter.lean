import RegisterMap.Header.Draft
import RegisterMap.Text.Hex
import RegisterMap.Walk.Emitter

/-!
Constants for the address of every register and memory and for the place of
every field. Arrays are unrolled, so that each element has an address of its
own, while the constants of a field are shared by all elements. A name means
one thing only: its first value stays, and another one is warned about.
-/

namespace RegisterMap.Header

abbrev HeaderM := ExportM Draft

/-- Defines a constant on behalf of the element with a path. -/
def define (path name value : String) : HeaderM Unit := do
  match (← .built).valueOf? name with
  | none => .build (·.addConstant name value)
  | some first =>
    if first ≠ value then
      .warn (path ++ ": '" ++ name ++ "' already defined as " ++ first ++
        ", keeping it instead of " ++ value)

/-- The base and the size of a memory. -/
def defineMemory (e : Element) (name : String) : HeaderM Unit := do
  let size ← .checked e.node.size?
  define e.path (name ++ "_BASE") (Text.hex e.address)
  define e.path (name ++ "_SIZE") (Text.hex size)

/-- The constants of a field take the name of its register without an index. -/
def defineField (f : Field) (register : Element) : HeaderM Unit := do
  let mask ← .checked f.mask?
  let name := register.node.name
  define register.path (Identifier.macroName [name, f.name, "OFFSET"]) (toString f.lsb)
  define register.path (Identifier.macroName [name, f.name, "MASK"]) (Text.hex mask)

def emitter (options : HeaderOptions) : Emitter Draft where
  options := { skipAbsent := options.skipAbsent, unroll := true }
  splits := true
  initial := .empty
  start _ := pure ()
  block e inside := do
    .build (·.addBlock e.path)
    if e.node.kind = .mem then defineMemory e (Identifier.macroName [e.ident])
    else inside
  registerFile _ _ inside := inside
  register e parent inside := do
    let _ ← checkRegisterArray e
    define e.path (Identifier.macroName [parent.ident, e.ident]) (Text.hex e.address)
    inside
  memory e parent := defineMemory e (Identifier.macroName [parent.ident, e.ident])
  field f _ register := defineField f register
  finish context := do
    let draft ← .built
    return .text (render options.dialect context.destination draft.lines.reverse)

end RegisterMap.Header
