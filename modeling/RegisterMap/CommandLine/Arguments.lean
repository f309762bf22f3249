import RegisterMap.Options
import RegisterMap.Path

/-!
The arguments of a command line. Options are given once each, by a long name or
a letter; letters can share a dash; a value stands behind an equals sign, behind
a letter, or as the next argument, where it does not start with a dash. Behind a
double dash there are no more options.
-/

namespace RegisterMap.CommandLine

/-- An option without a value. -/
inductive Flag where
  | uvm
  | doc
  | xml
  | skipAbsent
  | verbose
  | debug
  | help
  | version
deriving DecidableEq, Repr

/-- An option with a value. -/
inductive Setting where
  | output
  | header
  | config
  | title
  | footer
  | homeUrl
deriving DecidableEq, Repr

inductive Name where
  | flag (f : Flag)
  | setting (s : Setting)
deriving DecidableEq, Repr

namespace Name

def long? : String → Option Name
  | "uvm" => some (.flag .uvm)
  | "doc" => some (.flag .doc)
  | "xml" => some (.flag .xml)
  | "skip-not-present" => some (.flag .skipAbsent)
  | "verbose" => some (.flag .verbose)
  | "debug" => some (.flag .debug)
  | "help" => some (.flag .help)
  | "version" => some (.flag .version)
  | "output" => some (.setting .output)
  | "header" => some (.setting .header)
  | "config" => some (.setting .config)
  | "title" => some (.setting .title)
  | "footer" => some (.setting .footer)
  | "home-url" => some (.setting .homeUrl)
  | _ => none

def short? (c : Char) : Option Name :=
  if c = 's' then some (.flag .skipAbsent)
  else if c = 'v' then some (.flag .verbose)
  else if c = 'h' then some (.flag .help)
  else if c = 'V' then some (.flag .version)
  else if c = 'o' then some (.setting .output)
  else none

end Name

/-- The dialects to write headers in, by the value of the option. -/
def headers? : String → Option (List HeaderDialect)
  | "all" => some [.c, .verilog]
  | "c" => some [.c]
  | "verilog" => some [.verilog]
  | _ => none

/-- Why a command line gives nothing to run. -/
inductive Refusal where
  | help
  | version
  | malformed
deriving DecidableEq, Repr

/-- What has been read so far. -/
structure Reading where
  flags : List Flag := []
  settings : List (Setting × String) := []
  input : Option String := none
  /-- The option whose value may be the next argument. -/
  pending : Option Setting := none
  /-- A double dash has been read. -/
  onlyInputs : Bool := false

namespace Reading

def addFlag (r : Reading) : Flag → Except Refusal Reading
  | .help => .error .help
  | .version => .error .version
  | f => if r.flags.contains f then .error .malformed else .ok { r with flags := f :: r.flags }

/-- Whether an option can have a value. Paths are not empty. -/
def accepts : Setting → String → Bool
  | .output, v => !v.isEmpty
  | .config, v => !v.isEmpty
  | .header, v => (headers? v).isSome
  | _, _ => true

def addSetting (r : Reading) (s : Setting) (v : String) : Except Refusal Reading :=
  if (r.settings.lookup s).isSome || !accepts s v then .error .malformed
  else .ok { r with settings := (s, v) :: r.settings, pending := none }

/-- An option that is still without a value; only the one for headers can do
without. -/
def settle (r : Reading) : Except Refusal Reading :=
  match r.pending with
  | none => .ok r
  | some .header => r.addSetting .header "all"
  | some _ => .error .malformed

def addInput (r : Reading) (arg : String) : Except Refusal Reading :=
  if r.input.isSome || arg.isEmpty then .error .malformed else .ok { r with input := some arg }

/-- A long option, taken apart at its first equals sign. -/
def addLong (r : Reading) (body : List Char) : Except Refusal Reading :=
  let attached := body.dropWhile (· != '=')
  match Name.long? (String.ofList (body.takeWhile (· != '='))), attached with
  | some (.flag f), [] => r.addFlag f
  | some (.setting s), [] => .ok { r with pending := some s }
  | some (.setting s), _ :: v => r.addSetting s (String.ofList v)
  | _, _ => .error .malformed

/-- Options of one letter. What stands behind one with a value is its value. -/
def addShort (r : Reading) : List Char → Except Refusal Reading
  | [] => .ok r
  | c :: rest =>
    match Name.short? c with
    | some (.flag f) =>
      match r.addFlag f with
      | .ok r => addShort r rest
      | .error e => .error e
    | some (.setting s) =>
      match rest with
      | [] => .ok { r with pending := some s }
      | '=' :: v => r.addSetting s (String.ofList v)
      | v => r.addSetting s (String.ofList v)
    | none => .error .malformed

/-- An argument that is not the value of the one before it. -/
def addFresh (r : Reading) (arg : String) : Except Refusal Reading :=
  if r.onlyInputs then r.addInput arg
  else
    match arg.toList with
    | ['-', '-'] => .ok { r with onlyInputs := true }
    | '-' :: '-' :: body => r.addLong body
    | '-' :: c :: rest => r.addShort (c :: rest)
    | _ => r.addInput arg

/-- Whether an argument starts an option. -/
def startsOption (arg : String) : Bool :=
  match arg.toList with
  | '-' :: _ :: _ => true
  | _ => false

def add (r : Reading) (arg : String) : Except Refusal Reading :=
  match r.pending with
  | some s =>
    if !r.onlyInputs && !startsOption arg then r.addSetting s arg
    else if arg = "--" && !r.onlyInputs then .ok { r with onlyInputs := true }
    else do
      let r ← r.settle
      { r with pending := none }.addFresh arg
  | none => r.addFresh arg

end Reading

/-- A command line that can be run. -/
structure Arguments where
  input : Path
  output : Path
  headers : List HeaderDialect
  flags : List Flag
  config : Option Path
  title : Option String
  footer : Option String
  homeUrl : Option String

namespace Arguments

def ofReading (r : Reading) : Except Refusal Arguments :=
  match r.input, r.settings.lookup .output with
  | some input, some output => .ok {
      input := ⟨input⟩, output := ⟨output⟩, flags := r.flags
      headers := ((r.settings.lookup .header).bind headers?).getD []
      config := (r.settings.lookup .config).map Path.mk
      title := r.settings.lookup .title
      footer := r.settings.lookup .footer
      homeUrl := r.settings.lookup .homeUrl }
  | _, _ => .error .malformed

/-- Reads the arguments behind the program's name. -/
def ofList (args : List String) : Except Refusal Arguments := do
  let r ← args.foldlM Reading.add {}
  let r ← r.settle
  ofReading r

def has (a : Arguments) (f : Flag) : Bool := a.flags.contains f

/-- Whether there is anything to write. -/
def selectsOutput (a : Arguments) : Bool :=
  !a.headers.isEmpty || a.has .uvm || a.has .doc || a.has .xml

end Arguments

end RegisterMap.CommandLine
