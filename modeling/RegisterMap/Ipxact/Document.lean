import RegisterMap.Options
import RegisterMap.Walk.Emitter
import RegisterMap.Xml

/-!
A component description while it is being built: the elements that are open
form a stack, and a closed element becomes the last child of the one around it.
-/

namespace RegisterMap.Ipxact

/-- An element that is open, with what has been closed in it. -/
structure OpenElement where
  name : String
  contents : Array Xml := #[]

namespace OpenElement

def close (e : OpenElement) : Xml := { name := e.name, children := e.contents.toList }

def addChild (e : OpenElement) (child : Xml) : OpenElement :=
  { e with contents := e.contents.push child }

/-- Another text for the child at a position. -/
def fillChild (e : OpenElement) (position : Nat) (text : String) : OpenElement :=
  { e with contents := e.contents.modify position fun child => { child with text := some text } }

end OpenElement

/-- A step that builds the description; the innermost open element comes first
and the memory map last. -/
abbrev IpxactM := ExportM (List OpenElement)

/-- The full name of an element. -/
def tag (standard : IpxactStandard) (name : String) : String := standard.space ++ ":" ++ name

variable (standard : IpxactStandard)

/-- Opens an element in the innermost one. -/
def openElement (name : String) : IpxactM Unit := .build ({ name := tag standard name } :: ·)

/-- Closes the innermost element, which has to lie in another one. -/
def closeElement : IpxactM Unit := do
  if (← .built).length < 2 then .fail (.fatal "XML element stack underflow")
  .build fun
    | element :: above => above.modifyHead (·.addChild element.close)
    | [] => []

/-- Adds an element with a text to the innermost one. -/
def value (name text : String) : IpxactM Unit := do
  if (← .built).isEmpty then .fail (.fatal "no open XML element")
  .build (·.modifyHead (·.addChild { name := tag standard name, text := some text }))

/-- Adds an element for a text that may be absent. -/
def optionalValue (name : String) : Option String → IpxactM Unit
  | some text => value standard name text
  | none => pure ()

/-- The names that most elements begin with. -/
def nameGroup (name : String) (displayName desc : Option String) : IpxactM Unit := do
  value standard "name" name
  optionalValue standard "displayName" displayName
  optionalValue standard "description" desc

/-- An element with some steps inside it. -/
def within (name : String) (inside : IpxactM Unit) : IpxactM Unit := do
  openElement standard name
  inside
  closeElement

/-- The position of the child that was added last. -/
def lastSlot : IpxactM Nat := do
  match ← .built with
  | parent :: _ => return parent.contents.size - 1
  | [] => return 0

/-- Gives a child of the innermost element another text. -/
def fillSlot (slot : Nat) (text : String) : IpxactM Unit :=
  .build (·.modifyHead (·.fillChild slot text))

/-- The component around a memory map. -/
def component (options : IpxactOptions) (top : String) (memoryMap : Xml) : Xml :=
  let named := fun (name text : String) =>
    ({ name := tag options.standard name, text := some text } : Xml)
  { name := tag options.standard "component"
    attributes := [("xmlns:" ++ options.standard.space, options.standard.spaceName)]
    children := [
      named "vendor" options.vendor,
      named "library" options.library,
      named "name" top,
      named "version" options.version,
      { name := tag options.standard "memoryMaps", children := [memoryMap] }] }

end RegisterMap.Ipxact
