/-!
Messages about an export. An export never prints: what it has to say is kept in
order, each message with how grave it is.
-/

namespace RegisterMap

inductive Severity where
  | debug
  | info
  | warning
  | error
  | fatal
deriving DecidableEq, Repr

structure Message where
  severity : Severity
  text : String
deriving DecidableEq, Repr

/-- The levels of a log. -/
inductive LogLevel where
  | error
  | warn
  | info
  | debug
deriving DecidableEq, Repr

namespace Severity

def word : Severity → String
  | debug => "debug"
  | info => "info"
  | warning => "warning"
  | error => "error"
  | fatal => "fatal"

def all : List Severity := [debug, info, warning, error, fatal]

def ofWord? (s : String) : Option Severity := all.find? fun v => v.word == s

def logLevel : Severity → LogLevel
  | debug => .debug
  | info => .info
  | warning => .warn
  | error | fatal => .error

end Severity

namespace LogLevel

def word : LogLevel → String
  | error => "ERROR"
  | warn => "WARN"
  | info => "INFO"
  | debug => "DEBUG"

/-- How much a log of that level shows. -/
def rank : LogLevel → Nat
  | error => 1
  | warn => 2
  | info => 3
  | debug => 4

end LogLevel

namespace Message

/-- The text of a message in a log, which has no level for fatal ones. -/
def logText (m : Message) : String :=
  if m.severity = .fatal then "fatal: " ++ m.text else m.text

/-- The texts of the messages that are exactly so grave. -/
def textsOf (severity : Severity) (messages : List Message) : List String :=
  (messages.filter fun m => m.severity = severity).map (·.text)

end Message

end RegisterMap
