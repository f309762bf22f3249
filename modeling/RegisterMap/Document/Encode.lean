import RegisterMap.Json.Writer
import RegisterMap.Model.Node

/-!
Writing a register map as a JSON document. Name, kind and offset are always
written; what is absent or empty is left out.
-/

namespace RegisterMap

namespace Document

/-- A member with a value, or no member. -/
def present (name : String) (write : α → Json) : Option α → List (String × Json)
  | none => []
  | some a => [(name, write a)]

/-- A member with a list, or no member for the empty list. -/
def nonempty (name : String) (write : α → Json) : List α → List (String × Json)
  | [] => []
  | items => [(name, .array (items.map write))]

end Document

open Document

def EnumeratedValue.toJson (v : EnumeratedValue) : Json :=
  .record ([("name", .str v.name), ("value", .nat v.value)] ++
    present "display_name" .str v.displayName ++ present "desc" .str v.desc)

def PropertyValue.toJson : PropertyValue → Json
  | .bool b => .bool b
  | .int n => .nat n
  | .text s => .str s
  | .encode values => .array (values.map EnumeratedValue.toJson)

def Properties.toJson (p : Properties) : Json :=
  .record (p.entries.map fun entry => (entry.1, entry.2.toJson))

def Properties.member (p : Properties) : List (String × Json) :=
  if p.isEmpty then [] else [("properties", p.toJson)]

def ArrayShape.toJson (a : ArrayShape) : Json :=
  .record [("dimensions", .array (a.dimensions.map .nat)), ("stride", .nat a.stride)]

def Field.toJson (f : Field) : Json :=
  .record ([("inst_name", .str f.name), ("lsb", .nat f.lsb), ("msb", .nat f.msb)] ++
    f.properties.member)

mutual

def Node.toJson : Node → Json
  | { name, kind, offset, size, array, properties, children, fields, source } =>
    .record ([("inst_name", .str name), ("kind", .str kind.word), ("offset", .nat offset)] ++
      present "size" .nat size ++ present "array" ArrayShape.toJson array ++
      properties.member ++
      (if children.isEmpty then [] else [("children", .array (Node.toJsonAll children))]) ++
      nonempty "fields" Field.toJson fields ++
      present "source" (fun path => .str path.text) source)

def Node.toJsonAll : List Node → List Json
  | [] => []
  | child :: rest => child.toJson :: Node.toJsonAll rest

end

def Design.toJson (d : Design) : Json := .record [("top", d.top.toJson)]

/-- The text of a design's document. -/
def Design.render (d : Design) : String := d.toJson.render

end RegisterMap
