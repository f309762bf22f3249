/-!
Names for the languages that an export writes. A macro name is upper case and
made of letters, digits and underscores; a SystemVerilog identifier keeps its
case and steps aside from the keywords. Whatever a name cannot hold becomes an
underscore, and a name that would start with a digit is given one in front.
-/

namespace RegisterMap.Identifier

/-- An underscore in front of a leading digit. -/
def guardDigit : List Char → List Char
  | [] => []
  | c :: rest => if c.isDigit then '_' :: c :: rest else c :: rest

def macroChar (c : Char) : Char :=
  if c.isAlphanum then c.toUpper else '_'

/-- The parts of a macro name, joined by underscores. -/
def macroChars (parts : List String) : List Char :=
  guardDigit (['_'].intercalate (parts.map fun part => part.toList.map macroChar))

/-- An upper-case macro name from its parts, such as `CHIP_CTRL`. -/
def macroName (parts : List String) : String := String.ofList (macroChars parts)

def identChar (c : Char) : Char :=
  if c.isAlphanum || c == '_' then c else '_'

/-- The SystemVerilog keywords that instances are likely to be named after. -/
def keywords : List String :=
  ["begin", "bit", "byte", "class", "config", "const", "default", "do", "end", "enum",
    "event", "extends", "final", "for", "foreach", "function", "if", "import", "initial",
    "input", "int", "integer", "interface", "local", "logic", "module", "new", "null",
    "output", "package", "rand", "real", "reg", "return", "static", "string", "struct",
    "super", "task", "this", "type", "virtual", "void", "while", "wire"]

/-- A keyword steps aside by a trailing underscore. -/
def avoidKeyword (name : String) : String :=
  if keywords.contains name then name ++ "_" else name

/-- A name made usable as a SystemVerilog identifier. -/
def systemVerilog (name : String) : String :=
  avoidKeyword (String.ofList (guardDigit (name.toList.map identChar)))

end RegisterMap.Identifier
