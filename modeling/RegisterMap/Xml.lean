/-!
XML elements and their text. A document starts with a declaration; every tag
starts a new line, indented by two spaces for each element it lies in, unless it
stands right behind a text, to which nothing may be added.
-/

namespace RegisterMap

structure Xml where
  name : String
  attributes : List (String × String) := []
  text : Option String := none
  children : List Xml := []

namespace Xml

/-- A character of a text. -/
def textChar (c : Char) : List Char :=
  if c = '<' then ['&', 'l', 't', ';']
  else if c = '>' then ['&', 'g', 't', ';']
  else if c = '&' then ['&', 'a', 'm', 'p', ';']
  else [c]

/-- A character of an attribute's value. -/
def attributeChar (c : Char) : List Char :=
  if c = '"' then ['&', 'q', 'u', 'o', 't', ';']
  else if c = '\'' then ['&', 'a', 'p', 'o', 's', ';']
  else textChar c

def escapeText (s : String) : String := String.ofList (s.toList.flatMap textChar)

def escapeAttribute (s : String) : String := String.ofList (s.toList.flatMap attributeChar)

/-- The start of the line for a tag at a level. -/
def newLine (level : Nat) : String := "\n" ++ String.ofList (List.replicate (2 * level) ' ')

def renderAttributes (attributes : List (String × String)) : String :=
  String.join (attributes.map fun a => " " ++ a.1 ++ "=\"" ++ escapeAttribute a.2 ++ "\"")

mutual

/-- The pieces of an element at a level, without what stands before its first tag. -/
def piecesAt (level : Nat) : Xml → List String
  | { name, attributes, text, children } =>
    let opening := "<" ++ name ++ renderAttributes attributes
    match text, children with
    | none, [] => [opening ++ "/>"]
    | some text, [] => [opening ++ ">" ++ escapeText text ++ "</" ++ name ++ ">"]
    | none, first :: rest =>
      (opening ++ ">" ++ newLine (level + 1)) ::
        (piecesAt (level + 1) first ++ linePieces (level + 1) rest ++
          [newLine level ++ "</" ++ name ++ ">"])
    | some text, first :: rest =>
      (opening ++ ">" ++ escapeText text) ::
        (piecesAt (level + 1) first ++ linePieces (level + 1) rest ++
          [newLine level ++ "</" ++ name ++ ">"])

/-- Elements on lines of their own. -/
def linePieces (level : Nat) : List Xml → List String
  | [] => []
  | child :: rest => newLine level :: (piecesAt level child ++ linePieces level rest)

end

/-- A document from its outermost element. -/
def render (root : Xml) : String :=
  "<?xml version=\"1.0\" encoding=\"UTF-8\"?>" ++ newLine 0 ++ String.join (piecesAt 0 root) ++
    "\n"

end Xml

end RegisterMap
