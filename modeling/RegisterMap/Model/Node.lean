import RegisterMap.Model.Access
import RegisterMap.Model.Property
import RegisterMap.Path
import RegisterMap.Word

/-!
The elaborated register map: a tree of address maps, register files, registers
and memories, each with its offset from its parent, and the fields of the
registers. Nothing here has been checked; what a property does not say has a
default.
-/

namespace RegisterMap

inductive Kind where
  | addrmap
  | regfile
  | reg
  | mem
deriving DecidableEq, Repr

namespace Kind

def word : Kind → String
  | addrmap => "addrmap"
  | regfile => "regfile"
  | reg => "reg"
  | mem => "mem"

def all : List Kind := [addrmap, regfile, reg, mem]

def ofWord? (s : String) : Option Kind := all.find? fun k => k.word == s

/-- An export starts from an address map or a memory. -/
def canBeTop : Kind → Bool
  | addrmap | mem => true
  | _ => false

end Kind

/-- The shape of an array of instances: its dimensions, outermost first, and the
distance between neighbouring elements. -/
structure ArrayShape where
  dimensions : List Nat
  stride : Nat
deriving DecidableEq, Repr

/-- A range of bits in a register. -/
structure Field where
  name : String
  lsb : Nat
  msb : Nat
  properties : Properties := {}
deriving DecidableEq, Repr

/-- A part of the map that has an address. The offset of an array is that of its
first element; a size is the size of one element, worked out where absent; the
source is the file that the part was defined in. -/
structure Node where
  name : String
  kind : Kind
  offset : Nat := 0
  size : Option Nat := none
  array : Option ArrayShape := none
  properties : Properties := {}
  children : List Node := []
  fields : List Field := []
  source : Option Path := none

instance : Inhabited Node := ⟨{ name := "", kind := .addrmap }⟩

/-- A whole register map, by its top. -/
structure Design where
  top : Node

namespace Node

def addrmap (name : String) : Node := { name, kind := .addrmap }

def regfile (name : String) : Node := { name, kind := .regfile }

def reg (name : String) : Node := { name, kind := .reg }

def withProperty (n : Node) (key : String) (value : PropertyValue) : Node :=
  { n with properties := n.properties.set key value }

/-- A memory by the number of its words and their width in bits. -/
def mem (name : String) (entries width : Nat) : Node :=
  let bare : Node := { name, kind := .mem }
  (bare.withProperty "mementries" (.int entries)).withProperty "memwidth" (.int width)

def addChild (n child : Node) : Node := { n with children := n.children ++ [child] }

def addField (n : Node) (field : Field) : Node := { n with fields := n.fields ++ [field] }

def isArray (n : Node) : Bool := n.array.isSome

def displayName? (n : Node) : Option String := n.properties.text? "name"

def desc? (n : Node) : Option String := n.properties.text? "desc"

def isPresent (n : Node) : Bool := n.properties.boolOr "ispresent" true

/-- The width of a register in bits. -/
def regWidth (n : Node) : Nat :=
  ((n.properties.int? "regwidth").map Word.saturate).getD 32

/-- The width that a register is accessed in, its own where none is given. -/
def accessWidth (n : Node) : Nat :=
  ((n.properties.int? "accesswidth").map Word.saturate).getD n.regWidth

/-- The width of the bus that a register asks for. -/
def busWidth (n : Node) : Nat := max n.accessWidth n.regWidth

def memEntries? (n : Node) : Option Nat := n.properties.int? "mementries"

def memWidth? (n : Node) : Option Nat := (n.properties.int? "memwidth").map Word.saturate

/-- The width of a memory's words in bits. -/
def memWidth (n : Node) : Nat := n.memWidth?.getD 32

def softwareAccess (n : Node) : SoftwareAccess :=
  (n.properties.typed? SoftwareAccess.ofWord? "sw").getD .rw

end Node

namespace Field

def withProperty (f : Field) (key : String) (value : PropertyValue) : Field :=
  { f with properties := f.properties.set key value }

/-- The number of bits, if the range is not backwards and its width is a narrow
word. -/
def width? (f : Field) : Option Nat :=
  if f.lsb ≤ f.msb ∧ f.msb - f.lsb + 1 < Word.narrowLimit then some (f.msb - f.lsb + 1) else none

/-- As many low bits as asked for, at most a whole word of them. -/
def lowBits (width : Nat) : Nat := Nat.pow 2 (min width 64) - 1

/-- The bits of the field at their place in a 64-bit register. -/
def mask? (f : Field) : Option Nat := do
  let width ← f.width?
  some (if f.lsb < 64 then (lowBits width <<< f.lsb) % Word.limit else 0)

def displayName? (f : Field) : Option String := f.properties.text? "name"

def desc? (f : Field) : Option String := f.properties.text? "desc"

def isPresent (f : Field) : Bool := f.properties.boolOr "ispresent" true

def softwareAccess (f : Field) : SoftwareAccess :=
  (f.properties.typed? SoftwareAccess.ofWord? "sw").getD .rw

def hardwareAccess (f : Field) : HardwareAccess :=
  (f.properties.typed? HardwareAccess.ofWord? "hw").getD .rw

def readEffect? (f : Field) : Option ReadEffect := f.properties.typed? ReadEffect.ofWord? "onread"

def writeEffect? (f : Field) : Option WriteEffect :=
  f.properties.typed? WriteEffect.ofWord? "onwrite"

def reset? (f : Field) : Option Nat := f.properties.int? "reset"

def encode? (f : Field) : Option (List EnumeratedValue) := f.properties.encode?

def isUntested (f : Field) : Bool := f.properties.boolOr "donttest" false

/-- Volatile where the property says so; where there is none, when hardware can
write the field or reading it has an effect. -/
def isVolatile (f : Field) : Bool :=
  if f.properties.contains "volatile" then f.properties.boolOr "volatile" false
  else f.hardwareAccess.isWritable || f.readEffect?.isSome

end Field

end RegisterMap
