import RegisterMap.Walk.Emitter

/-!
An emitter that records what a walk meets. It can be told a path to warn at and
a path to fail at.
-/

namespace RegisterMap.Trace

structure Plan where
  options : WalkOptions := {}
  splits : Bool := true
  warnAt : Option String := none
  failAt : Option String := none

inductive Meeting where
  | block
  | registerFile
  | register
  | memory
deriving DecidableEq, Repr

inductive Event where
  | node (meeting : Meeting) (id : Nat) (element : Element) (parent : Option String)
      (busWidth : Option Nat)
  | finished (path : String) (busWidth : Option Nat)
  | field (name : String) (access : AccessCode) (register : String)

def record (event : Event) : ExportM (Array Event) Unit := .build (·.push event)

def note (plan : Plan) (meeting : Meeting) (e : Element) (parent : Option Element) :
    ExportM (Array Event) Unit := do
  let id ← .takeId
  let busWidth ← .busWidth
  record (.node meeting id e (parent.map (·.path)) busWidth)
  if plan.warnAt = some e.path then .warn ("warned at " ++ e.node.name)
  if plan.failAt = some e.path then .fail (.fatal ("failed at " ++ e.node.name))

def emitter (plan : Plan) : Emitter (Array Event) where
  options := plan.options
  splits := plan.splits
  initial := #[]
  start _ := pure ()
  block e inside := do
    .resetBusWidth
    note plan .block e none
    inside
    record (.finished e.path (← .busWidth))
  registerFile e parent inside := do
    note plan .registerFile e parent
    inside
  register e parent inside := do
    .observeBusWidth e.node.busWidth
    note plan .register e parent
    inside
  memory e parent := note plan .memory e parent
  field f access register := record (.field f.name access register.path)
  finish context := do
    let id ← .takeId
    return .text (context.top.name ++ " " ++ toString id ++ "\n")

end RegisterMap.Trace
