import RegisterMap.Json.Basic
import RegisterMap.Text.Hex

/-!
JSON text without spaces. In a string the quotation mark, the backslash and the
control characters are escaped and nothing else is.
-/

namespace RegisterMap.Json

/-- A character inside a quoted string. -/
def stringChar (c : Char) : List Char :=
  if c = '"' then ['\\', '"']
  else if c = '\\' then ['\\', '\\']
  else if c = '\x08' then ['\\', 'b']
  else if c = '\x0c' then ['\\', 'f']
  else if c = '\n' then ['\\', 'n']
  else if c = '\r' then ['\\', 'r']
  else if c = '\t' then ['\\', 't']
  else if c.toNat < 0x20 then ['\\', 'u'] ++ Text.hexPadded 4 c.toNat
  else [c]

/-- A text as a quoted string. -/
def quote (s : String) : String :=
  String.ofList ('"' :: s.toList.flatMap stringChar ++ ['"'])

def Number.render : Number → String
  | .natural n => toString n
  | .decimal negative digits exponent =>
    (if negative then "-" else "") ++ toString digits ++ "e" ++ toString exponent

/-- A string that is not a text is written as the empty one. -/
def renderText (s : Text) : String := quote (s.getD "")

mutual

/-- The pieces that the text of a value is joined from. -/
def pieces : Json → List String
  | .null => ["null"]
  | .bool true => ["true"]
  | .bool false => ["false"]
  | .number n => [n.render]
  | .text s => [renderText s]
  | .array items => "[" :: (itemPieces items ++ ["]"])
  | .object members => "\x7b" :: (memberPieces members ++ ["\x7d"])

/-- The items with commas between them. -/
def itemPieces : List Json → List String
  | [] => []
  | [item] => item.pieces
  | item :: next :: items => item.pieces ++ "," :: itemPieces (next :: items)

def memberPieces : List (Text × Json) → List String
  | [] => []
  | [(key, value)] => renderText key :: ":" :: value.pieces
  | (key, value) :: next :: members =>
    renderText key :: ":" :: (value.pieces ++ "," :: memberPieces (next :: members))

end

def render (j : Json) : String := String.join j.pieces

end RegisterMap.Json
