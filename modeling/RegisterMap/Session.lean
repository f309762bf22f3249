import RegisterMap.ExportError
import RegisterMap.Message

/-!
The state of one export: what its emitter has built so far, the messages, the
number of warnings, the widest access since the last reset, and the next free
identifier. An export stops early when it fails, or when an address or a size
leaves its word; a stop keeps the state, so that the messages are not lost.
-/

namespace RegisterMap

structure Session (σ : Type) where
  state : σ
  messages : Array Message := #[]
  warnings : Nat := 0
  busWidth : Option Nat := none
  nextId : Nat := 0

namespace Session

def emit (s : Session σ) (severity : Severity) (text : String) : Session σ :=
  { s with messages := s.messages.push ⟨severity, text⟩ }

/-- A warning is a message and is counted. -/
def warn (s : Session σ) (text : String) : Session σ :=
  { s.emit .warning text with warnings := s.warnings + 1 }

def resetBusWidth (s : Session σ) : Session σ := { s with busWidth := none }

def observeBusWidth (s : Session σ) (width : Nat) : Session σ :=
  { s with busWidth := some ((s.busWidth.map (max · width)).getD width) }

end Session

/-- Why an export stopped. -/
inductive Stop where
  | overflow
  | failed (e : ExportError)
deriving DecidableEq, Repr

/-- A step of an export whose emitter builds a `σ`. -/
abbrev ExportM (σ : Type) := ExceptT Stop (StateM (Session σ))

namespace ExportM

def stop (reason : Stop) : ExportM σ α := throw reason

def fail (e : ExportError) : ExportM σ α := stop (.failed e)

/-- A value that exists unless an address or a size leaves its word. -/
def checked : Option α → ExportM σ α
  | some a => pure a
  | none => stop .overflow

def debug (text : String) : ExportM σ Unit := modify fun s => s.emit .debug text

def info (text : String) : ExportM σ Unit := modify fun s => s.emit .info text

def warn (text : String) : ExportM σ Unit := modify fun s => s.warn text

def resetBusWidth : ExportM σ Unit := modify Session.resetBusWidth

def observeBusWidth (width : Nat) : ExportM σ Unit := modify fun s => s.observeBusWidth width

def busWidth : ExportM σ (Option Nat) := do return (← get).busWidth

/-- The next free identifier, counted from zero. -/
def takeId : ExportM σ Nat :=
  modifyGet fun s => (s.nextId, { s with nextId := s.nextId + 1 })

/-- What the emitter has built so far. -/
def built : ExportM σ σ := do return (← get).state

def build (f : σ → σ) : ExportM σ Unit := modify fun s => { s with state := f s.state }

/-- A step for each of some numbers in a row, which ends with the first that stops. -/
def forNumbers (step : Nat → ExportM σ Unit) (first : Nat) : (count : Nat) → ExportM σ Unit
  | 0 => pure ()
  | count + 1 => do
    step first
    forNumbers step (first + 1) count

theorem forNumbers_eq_forM (step : Nat → ExportM σ Unit) (first count : Nat) :
    forNumbers step first count = (List.range' first count).forM step := by
  induction count generalizing first with
  | zero => rfl
  | succ count ih => simp [forNumbers, List.range'_succ, ih]

end ExportM

end RegisterMap
