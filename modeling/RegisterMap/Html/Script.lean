import RegisterMap.Json.Writer

/-!
The index of all nodes, as a script that a page reads. Numbers that may take a
whole word are written as big integers, since others lose digits.
-/

namespace RegisterMap.Html

/-- A literal of the script. -/
inductive Literal where
  | null
  | number (n : Nat)
  | big (n : Nat)
  | text (s : String)
  | array (items : List Literal)
  | object (members : List (String × Literal))

namespace Literal

instance : Inhabited Literal := ⟨null⟩

mutual

/-- The pieces that the text of a literal is joined from. -/
def pieces : Literal → List String
  | null => ["null"]
  | number n => [toString n]
  | big n => [Text.hex n ++ "n"]
  | text s => [Json.quote s]
  | array items => "[" :: (itemPieces items ++ ["]"])
  | object members => "\x7b" :: (memberPieces members ++ ["\x7d"])

/-- The items with commas between them. -/
def itemPieces : List Literal → List String
  | [] => []
  | [item] => item.pieces
  | item :: next :: items => item.pieces ++ "," :: itemPieces (next :: items)

def memberPieces : List (String × Literal) → List String
  | [] => []
  | [(key, value)] => Json.quote key :: ":" :: value.pieces
  | (key, value) :: next :: members =>
    Json.quote key :: ":" :: (value.pieces ++ "," :: memberPieces (next :: members))

end

def render (l : Literal) : String := String.join l.pieces

end Literal

structure IndexField where
  name : String
  lsb : Nat
  msb : Nat
  reset : Nat
  access : String
  encode : List (String × Nat)
deriving DecidableEq, Repr

/-- What the index says about a node. The place of an entry is the node's
number. -/
structure IndexEntry where
  parent : Option Nat
  children : Array Nat
  name : String
  offset : Nat
  size : Nat
  /-- The dimensions and the stride of an array. -/
  array : Option (List Nat × Nat)
  /-- The fields of a register. -/
  fields : Option (List IndexField)
deriving DecidableEq, Repr

def IndexField.literal (f : IndexField) : Literal :=
  .object ([("name", .text f.name), ("lsb", .number f.lsb), ("msb", .number f.msb),
    ("reset", .big f.reset), ("access", .text f.access), ("disp", .text "H")] ++
    (if f.encode.isEmpty then []
      else [("encode", .object (f.encode.map fun value => (value.1, .big value.2)))]))

/-- An array is shown at its first element to begin with. -/
def IndexEntry.literal (e : IndexEntry) : Literal :=
  .object ([("parent", (e.parent.map Literal.number).getD .null),
    ("children", .array (e.children.toList.map .number)), ("name", .text e.name),
    ("offset", .big e.offset), ("size", .big e.size)] ++
    (match e.array with
      | none => []
      | some (dimensions, stride) =>
        [("dims", .array (dimensions.map .number)), ("stride", .big stride),
          ("idxs", .array (dimensions.map fun _ => .number 0))]) ++
    (match e.fields with
      | none => []
      | some fields => [("fields", .array (fields.map IndexField.literal))]))

/-- The script with the index and the title. -/
def indexScript (index : List IndexEntry) (title : String) : String :=
  "var RALIndex = " ++ (Literal.array (index.map IndexEntry.literal)).render ++
    ";\nvar PageInfo = " ++ (Literal.object [("title", .text title)]).render ++ ";\n"

end RegisterMap.Html
