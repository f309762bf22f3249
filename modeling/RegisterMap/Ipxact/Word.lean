import RegisterMap.Model.Access

/-!
The words of a component description for accesses and their side effects.
-/

namespace RegisterMap

/-- No access has no word. -/
def SoftwareAccess.ipxact? : SoftwareAccess → Option String
  | rw => some "read-write"
  | r => some "read-only"
  | w => some "write-only"
  | rw1 => some "read-writeOnce"
  | w1 => some "writeOnce"
  | na => none

def WriteEffect.ipxact : WriteEffect → String
  | woset => "oneToSet"
  | woclr => "oneToClear"
  | wot => "oneToToggle"
  | wzs => "zeroToSet"
  | wzc => "zeroToClear"
  | wzt => "zeroToToggle"
  | wclr => "clear"
  | wset => "set"
  | wuser => "modify"

def ReadEffect.ipxact : ReadEffect → String
  | rclr => "clear"
  | rset => "set"
  | ruser => "modify"

end RegisterMap
