import RegisterMap.Options
import RegisterMap.Path
import RegisterMap.Text.Identifier

/-!
The lines of a header: comments that start an address block, and constants. A
guard around them keeps a header from being read twice.
-/

namespace RegisterMap.Header

inductive Line where
  | block (path : String)
  | constant (name value : String)
deriving DecidableEq, Repr

/-- The value of a constant among some lines. -/
def valueOf? (name : String) (lines : List Line) : Option String :=
  lines.findSome? fun
    | .constant n value => if n = name then some value else none
    | .block _ => none

/-- The guard of a header, after the name of its file. -/
def guardName (file : Path) : String :=
  "__" ++ Identifier.macroName [file.fileName?.getD ""] ++ "__"

def Line.render (dialect : HeaderDialect) : Line → String
  | .block path => "\n// " ++ path ++ "\n"
  | .constant name value => dialect.mark ++ "define " ++ name ++ " " ++ value ++ "\n"

/-- A whole header from its lines. -/
def render (dialect : HeaderDialect) (file : Path) (lines : List Line) : String :=
  let guard := guardName file
  dialect.mark ++ "ifndef " ++ guard ++ "\n" ++
    dialect.mark ++ "define " ++ guard ++ "\n" ++
    String.join (lines.map (Line.render dialect)) ++
    "\n" ++ dialect.mark ++ "endif\n"

end RegisterMap.Header
