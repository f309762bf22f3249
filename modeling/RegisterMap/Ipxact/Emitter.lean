import RegisterMap.Ipxact.Document
import RegisterMap.Ipxact.Word
import RegisterMap.Text.Hex

/-!
A component description with one memory map. The width of an address block is
known when all registers in it have been met, so its element is put in empty and
filled at the end. Memories below an address block and register arrays with gaps
have no place in the format: they are left out with a warning.
-/

namespace RegisterMap.Ipxact

/-- What stands about the presence of a node or a field. -/
def presence (standard : IpxactStandard) (isPresent : Bool) : IpxactM Unit :=
  if isPresent then pure () else value standard "isPresent" "0"

def nodeNames (standard : IpxactStandard) (n : Node) : IpxactM Unit :=
  nameGroup standard n.name n.displayName? n.desc?

/-- The dimensions of an array, one element each. -/
def dimensions (standard : IpxactStandard) (n : Node) : IpxactM Unit :=
  ((n.array.map (·.dimensions)).getD []).forM fun d => value standard "dim" (toString d)

/-- The width of an address block, from the widest access to a register in it. -/
def blockWidth (n : Node) (busWidth : Option Nat) : Nat :=
  busWidth.getD (if n.kind = .mem then n.memWidth else 32)

def addressBlock (standard : IpxactStandard) (e : Element) (inside : IpxactM Unit) :
    IpxactM Unit := do
  .resetBusWidth
  within standard "addressBlock" do
    nodeNames standard e.node
    presence standard e.node.isPresent
    value standard "baseAddress" (Text.hexLiteral e.address)
    let size ← .checked e.node.size?
    value standard "range" (Text.hexLiteral size)
    value standard "width" ""
    let slot ← lastSlot
    if e.node.kind = .mem then
      value standard "usage" "memory"
      optionalValue standard "access" e.node.softwareAccess.ipxact?
    inside
    fillSlot slot (toString (blockWidth e.node (← .busWidth)))

/-- The range of an array is also the distance between its elements. -/
def registerFile (standard : IpxactStandard) (e : Element) (inside : IpxactM Unit) :
    IpxactM Unit :=
  within standard "registerFile" do
    nodeNames standard e.node
    presence standard e.node.isPresent
    dimensions standard e.node
    value standard "addressOffset" (Text.hexLiteral e.node.offset)
    let range ← .checked e.node.rangeSize?
    value standard "range" (Text.hexLiteral range)
    inside

def register (standard : IpxactStandard) (e : Element) (inside : IpxactM Unit) :
    IpxactM Unit := do
  match ← checkRegisterArray e with
  | .sparse stride size =>
    .warn ("IP-XACT does not support register arrays whose stride (" ++ toString stride ++
      ") is larger than the register's size (" ++ toString size ++ "). Discarding '" ++
      e.path ++ "'")
  | _ =>
    within standard "register" do
      nodeNames standard e.node
      presence standard e.node.isPresent
      dimensions standard e.node
      value standard "addressOffset" (Text.hexLiteral e.node.offset)
      value standard "size" (toString e.node.regWidth)
      .observeBusWidth e.node.busWidth
      inside

def nestedMemory (e : Element) : IpxactM Unit :=
  .warn ("IP-XACT does not support 'mem' nodes that are nested in hierarchy. Discarding '" ++
    e.path ++ "'")

def enumeratedValue (standard : IpxactStandard) (v : EnumeratedValue) : IpxactM Unit :=
  within standard "enumeratedValue" do
    nameGroup standard v.name v.displayName v.desc
    value standard "value" (Text.hexLiteral v.value)

def field (standard : IpxactStandard) (f : Field) : IpxactM Unit :=
  within standard "field" do
    nameGroup standard f.name f.displayName? f.desc?
    presence standard f.isPresent
    value standard "bitOffset" (toString f.lsb)
    if let some reset := f.reset? then
      within standard "resets" do
        within standard "reset" do
          value standard "value" (Text.hexLiteral reset)
    let width ← .checked f.width?
    value standard "bitWidth" (toString width)
    if f.isVolatile then value standard "volatile" "true"
    optionalValue standard "access" f.softwareAccess.ipxact?
    if let some values := f.encode? then
      within standard "enumeratedValues" do
        values.forM (enumeratedValue standard)
    optionalValue standard "modifiedWriteValue" (f.writeEffect?.map WriteEffect.ipxact)
    optionalValue standard "readAction" (f.readEffect?.map ReadEffect.ipxact)
    if f.isUntested then value standard "testable" "false"

/-- The memory map stands for a split top itself, and has a name of its own around
a top that is a block. -/
def memoryMap (standard : IpxactStandard) (context : Context) : IpxactM Unit := do
  openElement standard "memoryMap"
  match context.explosion with
  | .explode => nodeNames standard context.top
  | .wrap => value standard "name" (context.top.name ++ "_mmap")

def emitter (options : IpxactOptions) : Emitter (List OpenElement) where
  options := { skipAbsent := options.skipAbsent }
  splits := true
  initial := []
  start := memoryMap options.standard
  block e inside := addressBlock options.standard e inside
  registerFile e _ inside := registerFile options.standard e inside
  register e _ inside := register options.standard e inside
  memory e _ := nestedMemory e
  field f _ _ := field options.standard f
  finish context := do
    match ← .built with
    | [] => .fail (.fatal "memory map missing")
    | memoryMap :: _ =>
      return .text (component options context.top.name memoryMap.close).render

end RegisterMap.Ipxact
