/-!
What software and hardware may do with a field, and what an access does besides
reading or writing. Each kind is written in a document by a short lower-case
word.
-/

namespace RegisterMap

/-- Software access to a field or a memory. -/
inductive SoftwareAccess where
  | rw
  | r
  | w
  | rw1
  | w1
  | na
deriving DecidableEq, Repr

/-- Hardware access to a field. -/
inductive HardwareAccess where
  | rw
  | r
  | w
  | na
deriving DecidableEq, Repr

/-- What a software read does to a field. -/
inductive ReadEffect where
  | rclr
  | rset
  | ruser
deriving DecidableEq, Repr

/-- What a software write does to a field. -/
inductive WriteEffect where
  | woset
  | woclr
  | wot
  | wzs
  | wzc
  | wzt
  | wclr
  | wset
  | wuser
deriving DecidableEq, Repr

namespace SoftwareAccess

def word : SoftwareAccess → String
  | rw => "rw"
  | r => "r"
  | w => "w"
  | rw1 => "rw1"
  | w1 => "w1"
  | na => "na"

def all : List SoftwareAccess := [rw, r, w, rw1, w1, na]

def ofWord? (s : String) : Option SoftwareAccess := all.find? fun a => a.word == s

def isReadable : SoftwareAccess → Bool
  | rw | r | rw1 => true
  | _ => false

def isWritable : SoftwareAccess → Bool
  | rw | w | rw1 | w1 => true
  | _ => false

end SoftwareAccess

namespace HardwareAccess

def word : HardwareAccess → String
  | rw => "rw"
  | r => "r"
  | w => "w"
  | na => "na"

def all : List HardwareAccess := [rw, r, w, na]

/-- Reading and writing may also be named in the other order. -/
def ofWord? (s : String) : Option HardwareAccess :=
  if s == "wr" then some rw else all.find? fun a => a.word == s

def isReadable : HardwareAccess → Bool
  | rw | r => true
  | _ => false

def isWritable : HardwareAccess → Bool
  | rw | w => true
  | _ => false

end HardwareAccess

namespace ReadEffect

def word : ReadEffect → String
  | rclr => "rclr"
  | rset => "rset"
  | ruser => "ruser"

def all : List ReadEffect := [rclr, rset, ruser]

def ofWord? (s : String) : Option ReadEffect := all.find? fun a => a.word == s

end ReadEffect

namespace WriteEffect

def word : WriteEffect → String
  | woset => "woset"
  | woclr => "woclr"
  | wot => "wot"
  | wzs => "wzs"
  | wzc => "wzc"
  | wzt => "wzt"
  | wclr => "wclr"
  | wset => "wset"
  | wuser => "wuser"

def all : List WriteEffect := [woset, woclr, wot, wzs, wzc, wzt, wclr, wset, wuser]

def ofWord? (s : String) : Option WriteEffect := all.find? fun a => a.word == s

end WriteEffect

end RegisterMap
