import RegisterMap.Model.Node

/-!
The access code of a field: one canonical word for what software sees, from the
side effects of its reads and writes and from what hardware may do. The first
rule that applies decides, clearing reads before setting ones and both before
the effects of writes.
-/

namespace RegisterMap

inductive AccessCode where
  | ro
  | rw
  | wo
  | rc
  | wrc
  | w1src
  | rs
  | wrs
  | w1crs
  | w1c
  | w1s
deriving DecidableEq, Repr

namespace AccessCode

def word : AccessCode → String
  | ro => "RO"
  | rw => "RW"
  | wo => "WO"
  | rc => "RC"
  | wrc => "WRC"
  | w1src => "W1SRC"
  | rs => "RS"
  | wrs => "WRS"
  | w1crs => "W1CRS"
  | w1c => "W1C"
  | w1s => "W1S"

def all : List AccessCode := [ro, rw, wo, rc, wrc, w1src, rs, wrs, w1crs, w1c, w1s]

def ofWord? (s : String) : Option AccessCode := all.find? fun c => c.word == s

end AccessCode

/-- The side effects of software accesses that a code tells apart. -/
structure AccessFlags where
  readClears : Bool := false
  readSets : Bool := false
  writeOneClears : Bool := false
  writeOneSets : Bool := false
deriving DecidableEq, Repr

def Field.accessFlags (f : Field) : AccessFlags where
  readClears := f.readEffect? == some .rclr
  readSets := f.readEffect? == some .rset
  writeOneClears := f.writeEffect? == some .woclr
  writeOneSets := f.writeEffect? == some .woset

/-- The code for some side effects and what hardware may do. -/
def AccessCode.infer (flags : AccessFlags) (hwWritable hwReadable : Bool) : AccessCode :=
  if flags.readClears then
    if flags.writeOneSets then .w1src else if hwWritable then .wrc else .rc
  else if flags.readSets then
    if flags.writeOneClears then .w1crs else if hwWritable then .wrs else .rs
  else if flags.writeOneClears then .w1c
  else if flags.writeOneSets then .w1s
  else if hwWritable then
    if hwReadable then .rw else .wo
  else .ro

def Field.accessCode (f : Field) : AccessCode :=
  .infer f.accessFlags f.hardwareAccess.isWritable f.hardwareAccess.isReadable

end RegisterMap
