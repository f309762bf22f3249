import RegisterMap.Explosion
import RegisterMap.AccessCode
import RegisterMap.FileSet
import RegisterMap.Session
import RegisterMap.Walk.Element

/-!
An output format, as what it does with each element of a walk. For a block, a
register file and a register it is handed the rest of the walk below as a step,
which it runs where it wants to: what it does before is in pre-order, and what
it does after has seen every descendant. The children of an element come in the
order of their declaration, the elements of an array in the order of their
indices. Nothing below an element is looked at before the walk gets there, and
none of its children is met unless all of them have addresses. Whether a list of
all of them would have room in memory is not part of the walk.
-/

namespace RegisterMap

/-- What is the same for all of one export. -/
structure Context where
  top : Node
  destination : Path
  explosion : Explosion

structure Emitter (σ : Type) where
  options : WalkOptions
  /-- Whether the top may be split into address blocks. -/
  splits : Bool
  initial : σ
  /-- Runs once, before the first block. -/
  start : Context → ExportM σ Unit
  /-- An address block: the top, or a child of a split one. -/
  block : Element → (inside : ExportM σ Unit) → ExportM σ Unit
  /-- A register file, or an address map below a block. -/
  registerFile : Element → (parent : Element) → (inside : ExportM σ Unit) → ExportM σ Unit
  register : Element → (parent : Element) → (inside : ExportM σ Unit) → ExportM σ Unit
  memory : Element → (parent : Element) → ExportM σ Unit
  field : Field → AccessCode → (register : Element) → ExportM σ Unit
  finish : Context → ExportM σ Artifact

namespace Emitter

/-- The fields of a register, in order. -/
def fields (em : Emitter σ) (register : Element) : ExportM σ Unit :=
  (register.node.metFields em.options).forM fun f => em.field f f.accessCode register

/-- A step that needs addresses for all children of an element. -/
def needing (em : Emitter σ) (parent : Element) (children : List Node)
    (step : ExportM σ Unit) : ExportM σ Unit :=
  if children.all (parent.reaches em.options) then step else .stop .overflow

mutual

/-- What is met from an element of a node downwards. -/
def visit (em : Emitter σ) (parent e : Element) : Node → ExportM σ Unit
  | { kind, children, .. } =>
    match kind with
    | .addrmap | .regfile =>
      em.registerFile e parent (em.needing e children (em.visitAll e children))
    | .reg => em.register e parent (em.fields e)
    | .mem => em.memory e parent

/-- What is met from the children of an element downwards. -/
def visitAll (em : Emitter σ) (parent : Element) : List Node → ExportM σ Unit
  | [] => pure ()
  | child :: rest => do
    .forNumbers (fun number => em.visit parent (parent.nth em.options child number) child) 0
      (child.metCount em.options)
    em.visitAll parent rest

end

/-- An element as an address block. -/
def visitBlock (em : Emitter σ) (e : Element) : ExportM σ Unit :=
  em.block e (em.needing e e.node.children (em.visitAll e e.node.children))

/-- The blocks of a split top, or the top as the only block. -/
def visitTop (em : Emitter σ) (top : Element) : Explosion → ExportM σ Unit
  | .wrap => em.visitBlock top
  | .explode =>
    em.needing top top.node.children ((top.children em.options).forM em.visitBlock)

def explosion (em : Emitter σ) (top : Node) : Explosion :=
  if em.splits then .decide top else .wrap

/-- A map has to start from a top and to keep the invariants. -/
def checkTop (top : Node) : ExportM σ Unit := do
  unless top.kind.canBeTop do .fail (.notATop top.name top.kind)
  match top.validate with
  | .ok () => pure ()
  | .error e => .fail (.model e)

/-- All of an export but the writing. -/
def artifact (em : Emitter σ) (top : Node) (destination : Path) : ExportM σ Artifact := do
  checkTop top
  let explosion := em.explosion top
  let context : Context := { top, destination, explosion }
  .debug ("exporting '" ++ top.name ++ "' to " ++ destination.text ++ " (" ++
    explosion.title ++ ")")
  em.start context
  em.visitTop (.top top) explosion
  em.finish context

/-- The artifact or the reason why there is none, and the session at its end. -/
def produce (em : Emitter σ) (top : Node) (destination : Path) :
    Except Stop Artifact × Session σ :=
  (em.artifact top destination).run.run { state := em.initial }

end Emitter

/-- Elements of a register array that overlap make their addresses ambiguous and
the export fails. A gap between them is told once for the array. -/
def checkRegisterArray (e : Element) : ExportM σ StrideCheck := do
  let check := e.node.strideCheck
  match check with
  | .overlapping stride size =>
    .debug (e.path ++ ": stride " ++ toString stride ++ " < size " ++ toString size)
    .fail (.overlappingArray e.path stride size)
  | .sparse stride size =>
    if e.isFirst then
      .info (e.path ++ ": stride " ++ toString stride ++ " leaves gaps after each " ++
        toString size ++ "-byte register")
  | .contiguous => pure ()
  return check

end RegisterMap
