import RegisterMap.CommandLine.Arguments
import RegisterMap.Document.Decode
import RegisterMap.Header.Emitter
import RegisterMap.Html.Emitter
import RegisterMap.Ipxact.Emitter
import RegisterMap.Options.Decode
import RegisterMap.Uvm.Emitter
import RegisterMap.Walk.Export

/-!
What a command line does: it loads the options and the design, and then writes
the outputs one after the other. The first failure ends it, and outputs that are
written by then stay.
-/

namespace RegisterMap

variable {m : Type → Type} [Monad m]

/-- The text of a file. -/
def FileSystem.readText (fs : FileSystem m) (p : Path) : m (Except ExportError String) := do
  match (← fs.read p).bind String.fromUTF8? with
  | some s => return .ok s
  | none => return .error (.io p)

def FileSystem.loadOptions (fs : FileSystem m) (p : Path) :
    m (Except ExportError ExportOptions) := do
  return (← fs.readText p).bind ExportOptions.ofText

/-- A refused document as the failure of an export. -/
def LoadError.toExportError : LoadError → ExportError
  | .malformed => .malformedDocument
  | .invalid e => .model e

def FileSystem.loadDesign (fs : FileSystem m) (p : Path) : m (Except ExportError Design) := do
  match ← fs.readText p with
  | .error e => return .error e
  | .ok s => return (Design.ofText s).mapError LoadError.toExportError

namespace CommandLine

/-- How a run ends before its end. -/
inductive Ending where
  | refused (reason : Refusal)
  /-- A failure, by what was being done. -/
  | failed (what : String)
  | overflow
deriving DecidableEq, Repr

def Ending.exitCode : Ending → Nat
  | .refused .help => 0
  | .refused .version => 0
  | .refused .malformed => 2
  | .failed _ => 1
  | .overflow => 101

/-- The first line of a failure on the error output. -/
def Ending.errorLine? : Ending → Option String
  | .failed what => some ("Error: " ++ what)
  | _ => none

structure LogLine where
  level : LogLevel
  text : String
deriving DecidableEq, Repr

/-- A step of a run, with the log so far. -/
abbrev RunM (m : Type → Type) := ExceptT Ending (StateT (Array LogLine) m)

def log (level : LogLevel) (text : String) : RunM m Unit := modify (·.push ⟨level, text⟩)

/-- Something that fails the run, told by what was being done. -/
def orFail (what : String) (step : m (Except ε α)) : RunM m α := do
  match ← (step : StateT (Array LogLine) m (Except ε α)) with
  | .ok a => return a
  | .error _ => throw (.failed what)

/-- Options of the command line go before those of the configuration. -/
def overrule (a : Arguments) (o : ExportOptions) : ExportOptions :=
  let o := if a.has .skipAbsent then o.skippingAbsent else o
  { o with
    html := { o.html with
      title := a.title.or o.html.title
      footer := a.footer.getD o.html.footer
      homeUrl := a.homeUrl.or o.html.homeUrl } }

def options (fs : FileSystem m) (a : Arguments) : RunM m ExportOptions := do
  match a.config with
  | none => return overrule a {}
  | some p =>
    let o ← orFail ("loading " ++ p.text) (fs.loadOptions p)
    return overrule a o

/-- One output to a destination. -/
def write (fs : FileSystem m) (what : String) (em : Emitter σ) (top : Node)
    (destination : Path) : RunM m Unit := do
  log .info ("Generating " ++ what ++ "...")
  let exported := em.run fs top destination
  let (result, session) ← exported
  session.messages.toList.forM fun message => log message.severity.logLevel message.logText
  match result with
  | .ok report =>
    log .info ("Generating " ++ what ++ " done: " ++ toString report.files.length ++
      " file(s), " ++ toString report.warnings ++ " warning(s)")
  | .error .overflow => throw .overflow
  | .error (.failed _) => throw (.failed ("generating " ++ what ++ " at " ++ destination.text))

/-- All outputs in their order. Descriptions are taken for plain text, in which
there are no images to look for. -/
def writeAll (fs : FileSystem m) (a : Arguments) (o : ExportOptions) (top : Node) :
    RunM m Unit := do
  a.headers.forM fun dialect =>
    write fs "header" (Header.emitter { o.header with dialect }) top
      (a.output.withSuffix dialect.extension)
  if a.has .uvm then
    write fs "UVM register model" (Uvm.emitter o.uvm) top (a.output.withSuffix "sv")
  if a.has .doc then
    write fs "HTML documentation"
      (Html.emitter { options := o.html, renderer := .plainText, view := .empty }) top
      (a.output.join ⟨"docs"⟩)
  if a.has .xml then
    write fs "IP-XACT description" (Ipxact.emitter o.ipxact) top (a.output.withSuffix "xml")

def steps (fs : FileSystem m) (a : Arguments) : RunM m Unit := do
  if !a.selectsOutput then
    throw (.failed "select at least one generator: --header, --uvm, --doc or --xml")
  let o ← options fs a
  let design ← orFail ("loading design " ++ a.input.text) (fs.loadDesign a.input)
  log .info ("Loaded '" ++ design.top.name ++ "' from " ++ a.input.text)
  writeAll fs a o design.top

/-- Runs a command line and answers with how it ended, and the log. -/
def run (fs : FileSystem m) (args : List String) : m (Except Ending Unit × List LogLine) := do
  match Arguments.ofList args with
  | .error reason => return (.error (.refused reason), [])
  | .ok a =>
    let (ended, lines) ← (steps fs a).run.run #[]
    return (ended, lines.toList)

end CommandLine

end RegisterMap
