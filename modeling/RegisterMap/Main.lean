import RegisterMap.CommandLine.Run

/-!
The program: command lines are run on the files of the machine.
-/

namespace RegisterMap.CommandLine

/-- Whether a step goes through. -/
def succeeds (step : IO Unit) : IO Bool :=
  try
    step
    return true
  catch _ => return false

/-- What is made in a directory, under the first free one of some names that some
paths do not go through. -/
def stageIn (make : Path → IO Unit) (dir : Path) (used : List Path.Component) :
    Nat → IO (Option Path)
  | 0 => return none
  | tries + 1 => do
    let name := ".tmp" ++ toString (← IO.rand 100000 999999)
    if used.contains (.named name) then stageIn make dir used tries
    else
      let p := dir.join ⟨name⟩
      if ← succeeds (make p) then return some p else stageIn make dir used tries

/-- Makes a file where there is none. -/
def makeFile (p : Path) : IO Unit := do
  let _ ← IO.FS.Handle.mk p.text .writeNew

/-- The files of the machine. -/
def machine : FileSystem IO where
  makeDirectory p := do
    try
      IO.FS.createDir p.text
      return .made
    catch
      | .noFileOrDirectory .. => return .orphaned
      | _ => return .refused
  isDirectory p := do (← IO.FS.realPath p.text).isDir
  isPresent p := do (← IO.FS.realPath p.text).pathExists
  stage dir paths := stageIn (IO.FS.createDir ·.text) dir (paths.flatMap Path.components) 32
  stageFile dir paths := stageIn makeFile dir (paths.flatMap Path.components) 32
  write p content := succeeds (IO.FS.writeBinFile p.text content)
  move source target := succeeds (IO.FS.rename source.text target.text)
  discard p := do
    if !(← succeeds (IO.FS.removeFile p.text)) then
      let _ ← succeeds (IO.FS.removeDirAll p.text)
  read p := do
    try
      return some (← IO.FS.readBinFile p.text)
    catch _ => return none

/-- How much of the log is shown. -/
def shownRank (args : List String) : Nat :=
  match Arguments.ofList args with
  | .ok a =>
    if a.has .debug then LogLevel.debug.rank
    else if a.has .verbose then LogLevel.info.rank
    else LogLevel.warn.rank
  | .error _ => 0

def usage : String :=
  "Usage: rdl-export [OPTIONS] --output <FILE> <DESIGN>\n\n" ++
  "  -o, --output <FILE>     Output base path\n" ++
  "      --header [<KIND>]   Constants for all, verilog or c\n" ++
  "      --uvm               UVM register model\n" ++
  "      --doc               HTML documentation\n" ++
  "      --xml               IP-XACT description\n" ++
  "  -s, --skip-not-present  Skip what is not present\n" ++
  "      --config <FILE>     Options for the outputs (TOML)\n" ++
  "      --title <TITLE>     Title of the documentation\n" ++
  "      --footer <FOOTER>   Footer of the documentation\n" ++
  "      --home-url <URL>    Home link of the documentation\n" ++
  "  -v, --verbose           Print progress\n" ++
  "      --debug             Print debug output\n" ++
  "  -h, --help              Print help\n" ++
  "  -V, --version           Print version"

end RegisterMap.CommandLine

open RegisterMap in
/-- Runs the arguments and exits with the code of how they ended. -/
def main (args : List String) : IO UInt32 := do
  let (ended, lines) ← CommandLine.run CommandLine.machine args
  let rank := CommandLine.shownRank args
  for line in lines do
    if line.level.rank ≤ rank then IO.println (line.level.word ++ " " ++ line.text)
  match ended with
  | .ok () => return 0
  | .error ending =>
    match ending with
    | .refused .help => IO.println CommandLine.usage
    | .refused .version => IO.println "rdl-export 0.1.0"
    | .refused .malformed => IO.eprintln CommandLine.usage
    | .failed _ | .overflow => pure ()
    if let some text := ending.errorLine? then IO.eprintln text
    return ending.exitCode.toUInt32
