import RegisterMap.AccessCode
import RegisterMap.Model.Array

/-!
The classes of a register model. A register class has its fields, a memory
class its geometry, and a block class has members of other classes: it says
where in its own address map each of them lies.
-/

namespace RegisterMap.Uvm

/-- What an address map lets through to a register or a memory. -/
inductive Rights where
  | ro
  | wo
  | rw
deriving DecidableEq, Repr

namespace Rights

def word : Rights → String
  | ro => "RO"
  | wo => "WO"
  | rw => "RW"

def ofFlags (readable writable : Bool) : Rights :=
  match readable, writable with
  | true, false => ro
  | false, true => wo
  | _, _ => rw

/-- The rights to a memory with some software access. -/
def ofAccess : SoftwareAccess → Rights
  | .r => ro
  | .w | .w1 => wo
  | _ => rw

end Rights

structure FieldMember where
  name : String
  width : Nat
  lsb : Nat
  access : AccessCode
  isVolatile : Bool
  reset : Option Nat
  isReadable : Bool
  isWritable : Bool

structure RegisterClass where
  name : String
  width : Nat
  fields : Array FieldMember := #[]

/-- The rights to a register follow from all its fields. -/
def RegisterClass.rights (c : RegisterClass) : Rights :=
  .ofFlags (c.fields.any (·.isReadable)) (c.fields.any (·.isWritable))

structure MemoryClass where
  name : String
  entries : Nat
  width : Nat
  rights : Rights

/-- What a member of a block is. -/
inductive MemberKind where
  | register
  | block
  | memory
deriving DecidableEq, Repr

/-- A member, or an array of members from the offset of the first. -/
structure Member where
  kind : MemberKind
  name : String
  className : String
  shape : Option ArrayShape
  offset : Nat
  rights : Rights := .rw

namespace Member

/-- How many elements a member has. -/
def count (m : Member) : Nat := (m.shape.map (·.count)).getD 1

/-- The offset of the element with a number. -/
def offsetOf (m : Member) (linear : Nat) : Nat :=
  elementAddress 0 m.offset ((m.shape.map (·.stride)).getD 0) linear

/-- The index of the element with a number, empty where there is no array. -/
def indexOf (m : Member) (linear : Nat) : List Nat :=
  (m.shape.map (·.unravel linear)).getD []

end Member

structure BlockClass where
  name : String
  members : Array Member := #[]
  /-- The widest access below, if there is any. -/
  width : Option Nat := none

namespace BlockClass

def addMember (c : BlockClass) (member : Member) : BlockClass :=
  { c with members := c.members.push member }

def observeWidth (c : BlockClass) (width : Nat) : BlockClass :=
  { c with width := some ((c.width.map (max · width)).getD width) }

/-- The bytes that the address map is accessed by. -/
def mapBytes (c : BlockClass) : Nat := (c.width.getD 32 + 7) / 8

end BlockClass

/-- All classes in the order of their declaration: registers and memories before
blocks, and the model of the top last. -/
structure Package where
  name : String
  top : String
  registers : List RegisterClass
  memories : List MemoryClass
  blocks : List BlockClass
  model : BlockClass

end RegisterMap.Uvm
