/-!
HTML as a tree, and its text. Whatever comes from a design is put in as a text
or an attribute and escaped on the way out, so that it cannot be taken for
markup; only a fragment that is markup already stands as it is.
-/

namespace RegisterMap.Html

/-- A character of a text or of an attribute's value. -/
def escapeChar (c : Char) : List Char :=
  if c = '&' then ['&', 'a', 'm', 'p', ';']
  else if c = '<' then ['&', 'l', 't', ';']
  else if c = '>' then ['&', 'g', 't', ';']
  else if c = '"' then ['&', 'q', 'u', 'o', 't', ';']
  else if c = '\'' then ['&', '#', '3', '9', ';']
  else [c]

def escape (s : String) : String := String.ofList (s.toList.flatMap escapeChar)

inductive Markup where
  | text (s : String)
  /-- A fragment that is markup already. -/
  | verbatim (s : String)
  | element (name : String) (attributes : List (String × String)) (contents : List Markup)
  /-- An element that has no end tag. -/
  | void (name : String) (attributes : List (String × String))

namespace Markup

def renderAttributes (attributes : List (String × String)) : String :=
  String.join (attributes.map fun a => " " ++ a.1 ++ "=\"" ++ escape a.2 ++ "\"")

mutual

/-- The pieces that the text of a node is joined from. -/
def pieces : Markup → List String
  | text s => [escape s]
  | verbatim s => [s]
  | element name attributes contents =>
    ("<" ++ name ++ renderAttributes attributes ++ ">") ::
      (allPieces contents ++ ["</" ++ name ++ ">"])
  | void name attributes => ["<" ++ name ++ renderAttributes attributes ++ ">"]

def allPieces : List Markup → List String
  | [] => []
  | first :: rest => first.pieces ++ allPieces rest

end

def renderAll (nodes : List Markup) : String := String.join (allPieces nodes)

/-- An element without attributes. -/
def plain (name : String) (contents : List Markup) : Markup := element name [] contents

def lineEnd : Markup := text "\n"

end Markup

end RegisterMap.Html
