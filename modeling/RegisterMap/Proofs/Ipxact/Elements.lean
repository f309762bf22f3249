import RegisterMap.Ipxact.Emitter
import RegisterMap.Proofs.Walk

/-!
The elements that a component description has for the parts of a map, each written
out as a whole from its node or field. A number that a node does not have is zero
here; an export that meets such a node does not get to its end.
-/

namespace RegisterMap.Ipxact

variable (standard : IpxactStandard)

def leafElement (name text : String) : Xml := { name := tag standard name, text := some text }

def groupElement (name : String) (children : List Xml) : Xml :=
  { name := tag standard name, children }

def optionalElement (name : String) (text : Option String) : List Xml :=
  (text.map (leafElement standard name)).toList

def nameElements (name : String) (displayName desc : Option String) : List Xml :=
  leafElement standard "name" name ::
    (optionalElement standard "displayName" displayName ++
      optionalElement standard "description" desc)

def nodeNameElements (n : Node) : List Xml :=
  nameElements standard n.name n.displayName? n.desc?

def presenceElements (isPresent : Bool) : List Xml :=
  if isPresent then [] else [leafElement standard "isPresent" "0"]

def dimensionElements (n : Node) : List Xml :=
  ((n.array.map (·.dimensions)).getD []).map fun d => leafElement standard "dim" (toString d)

def enumeratedValueElement (v : EnumeratedValue) : Xml :=
  groupElement standard "enumeratedValue"
    (nameElements standard v.name v.displayName v.desc ++
      [leafElement standard "value" (Text.hexLiteral v.value)])

def resetElement (reset : Nat) : Xml :=
  groupElement standard "resets" [groupElement standard "reset"
    [leafElement standard "value" (Text.hexLiteral reset)]]

/-- What stands last in a field: the effects of an access and how to test it. -/
def effectElements (f : Field) : List Xml :=
  List.flatten [
    optionalElement standard "modifiedWriteValue" (f.writeEffect?.map WriteEffect.ipxact),
    optionalElement standard "readAction" (f.readEffect?.map ReadEffect.ipxact),
    if f.isUntested then [leafElement standard "testable" "false"] else []]

/-- What stands in a field from its access on. -/
def accessElements (f : Field) : List Xml :=
  List.flatten [
    optionalElement standard "access" f.softwareAccess.ipxact?,
    (f.encode?.map fun values => groupElement standard "enumeratedValues"
      (values.map (enumeratedValueElement standard))).toList,
    effectElements standard f]

/-- What stands in a field from its width on. -/
def widthElements (f : Field) : List Xml :=
  List.flatten [
    [leafElement standard "bitWidth" (toString (f.width?.getD 0))],
    if f.isVolatile then [leafElement standard "volatile" "true"] else [],
    accessElements standard f]

def fieldElement (f : Field) : Xml :=
  groupElement standard "field" (List.flatten [
    nameElements standard f.name f.displayName? f.desc?,
    presenceElements standard f.isPresent,
    [leafElement standard "bitOffset" (toString f.lsb)],
    (f.reset?.map (resetElement standard)).toList,
    widthElements standard f])

def registerElement (options : WalkOptions) (n : Node) : Xml :=
  groupElement standard "register" (List.flatten [
    nodeNameElements standard n,
    presenceElements standard n.isPresent,
    dimensionElements standard n,
    [leafElement standard "addressOffset" (Text.hexLiteral n.offset)],
    [leafElement standard "size" (toString n.regWidth)],
    (n.metFields options).map (fieldElement standard)])

def registerFileElement (n : Node) (inside : List Xml) : Xml :=
  groupElement standard "registerFile" (List.flatten [
    nodeNameElements standard n,
    presenceElements standard n.isPresent,
    dimensionElements standard n,
    [leafElement standard "addressOffset" (Text.hexLiteral n.offset)],
    [leafElement standard "range" (Text.hexLiteral (n.rangeSize?.getD 0))],
    inside])

/-- What an address block says about a memory. -/
def memoryElements (n : Node) : List Xml :=
  if n.kind = .mem then
    leafElement standard "usage" "memory" ::
      optionalElement standard "access" n.softwareAccess.ipxact?
  else []

/-- An address block of a node, from the widest access to a register in it. -/
def addressBlockElement (n : Node) (address : Nat) (busWidth : Option Nat) (inside : List Xml) :
    Xml :=
  groupElement standard "addressBlock" (List.flatten [
    nodeNameElements standard n,
    presenceElements standard n.isPresent,
    [leafElement standard "baseAddress" (Text.hexLiteral address)],
    [leafElement standard "range" (Text.hexLiteral (n.size?.getD 0))],
    [leafElement standard "width" (toString (blockWidth n busWidth))],
    memoryElements standard n,
    inside])

mutual

/-- The elements that stand for a child in the element of its parent. Memories and
arrays with gaps have none. -/
def childElements (options : WalkOptions) : Node → List Xml
  | n@{ kind, children, .. } =>
    if n.isSkipped options then []
    else
      match kind with
      | .addrmap | .regfile =>
        [registerFileElement standard n (childrenElements options children)]
      | .reg => if n.strideCheck = .contiguous then [registerElement standard options n] else []
      | .mem => []

def childrenElements (options : WalkOptions) : List Node → List Xml
  | [] => []
  | child :: rest => childElements options child ++ childrenElements options rest

end

theorem childrenElements_eq (options : WalkOptions) (children : List Node) :
    childrenElements standard options children =
      children.flatMap (childElements standard options) := by
  induction children with
  | nil => rfl
  | cons child rest ih => rw [childrenElements, ih, List.flatMap_cons]

theorem childElements_eq (options : WalkOptions) (n : Node) :
    childElements standard options n =
      if n.isSkipped options then []
      else
        match n.kind with
        | .addrmap | .regfile =>
          [registerFileElement standard n
            (n.children.flatMap (childElements standard options))]
        | .reg => if n.strideCheck = .contiguous then [registerElement standard options n] else []
        | .mem => [] := by
  rw [← childrenElements_eq]
  cases n with
  | mk name kind offset size array properties children fields source =>
    rw [childElements.eq_def]
    cases kind <;> rfl

mutual

/-- The widths that the registers with an element are accessed in, from a child
downwards. -/
def childWidths (options : WalkOptions) : Node → List Nat
  | n@{ kind, children, .. } =>
    if n.isSkipped options then []
    else
      match kind with
      | .addrmap | .regfile => childrenWidths options children
      | .reg => if n.strideCheck = .contiguous then [n.busWidth] else []
      | .mem => []

def childrenWidths (options : WalkOptions) : List Node → List Nat
  | [] => []
  | child :: rest => childWidths options child ++ childrenWidths options rest

end

theorem childrenWidths_eq (options : WalkOptions) (children : List Node) :
    childrenWidths options children = children.flatMap (childWidths options) := by
  induction children with
  | nil => rfl
  | cons child rest ih => rw [childrenWidths, ih, List.flatMap_cons]

theorem childWidths_eq (options : WalkOptions) (n : Node) :
    childWidths options n =
      if n.isSkipped options then []
      else
        match n.kind with
        | .addrmap | .regfile => n.children.flatMap (childWidths options)
        | .reg => if n.strideCheck = .contiguous then [n.busWidth] else []
        | .mem => [] := by
  rw [← childrenWidths_eq]
  cases n with
  | mk name kind offset size array properties children fields source =>
    rw [childWidths.eq_def]
    cases kind <;> rfl

/-! The memory map around all of them. -/

/-- The widest of the widths seen so far and of another one. -/
def widened (widest : Option Nat) (width : Nat) : Option Nat :=
  some ((widest.map (max · width)).getD width)

/-- An element as an address block, with all that is below it. -/
def blockElement (options : WalkOptions) (e : Element) : Xml :=
  addressBlockElement standard e.node e.address
    ((e.node.children.flatMap (childWidths options)).foldl widened none)
    (e.node.children.flatMap (childElements standard options))

/-- The blocks of a map: the top, or the elements right below a split one. -/
def blocks (options : WalkOptions) (top : Node) : Explosion → List Element
  | .wrap => [.top top]
  | .explode => (Element.top top).children options

def mapNameElements (top : Node) : Explosion → List Xml
  | .wrap => [leafElement standard "name" (top.name ++ "_mmap")]
  | .explode => nodeNameElements standard top

def memoryMapElement (options : WalkOptions) (top : Node) : Xml :=
  groupElement standard "memoryMap"
    (mapNameElements standard top (.decide top) ++
      (blocks options top (.decide top)).map (blockElement standard options))

end RegisterMap.Ipxact
