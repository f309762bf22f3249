/-!
Values of a configuration text. A floating-point number and a date are known
only to be that, since no option takes one.
-/

namespace RegisterMap

inductive Toml where
  | text (s : String)
  | integer (n : Int)
  | float
  | bool (b : Bool)
  /-- A date, a time of day, or both. -/
  | moment
  | array (items : List Toml)
  | table (entries : List (String × Toml))

namespace Toml

instance : Inhabited Toml := ⟨.float⟩

/-- How deeply arrays and tables inside a value may be nested, and how many parts
a key may have. -/
def nesting : Nat := 79

/-- A space or a tab. -/
def isBlank (c : Char) : Bool := c == ' ' || c == '\t'

def skipBlanks (cs : List Char) : List Char := cs.dropWhile isBlank

/-- What a comment may be made of. -/
def isCommentChar (c : Char) : Bool := c == '\t' || (0x20 ≤ c.toNat && c != '\x7f')

/-- What follows the end of a line at the front. -/
def newLine? : List Char → Option (List Char)
  | '\n' :: rest => some rest
  | '\r' :: '\n' :: rest => some rest
  | _ => none

/-- What follows a comment, if there is one. -/
def skipComment : List Char → List Char
  | '#' :: rest => rest.dropWhile isCommentChar
  | cs => cs

/-- What follows the rest of a line on which nothing else stands. -/
def lineEnd? (cs : List Char) : Option (List Char) :=
  match skipComment (skipBlanks cs) with
  | [] => some []
  | rest => newLine? rest

end Toml

end RegisterMap
