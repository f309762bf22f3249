import RegisterMap.Html.Markup
import RegisterMap.Options
import RegisterMap.Text.Hex
import RegisterMap.Walk.Element

/-!
The pages of the reference: one fragment for each node, and the page that they
are shown in.
-/

namespace RegisterMap.Html

open Markup (plain lineEnd)

/-- A child in the table of its parent. -/
structure ChildRow where
  id : Nat
  offset : Nat
  ident : String
  displayName : Option String

structure EncodeRow where
  name : String
  value : Nat
  /-- The description as markup. -/
  desc : Option String

/-- A field in the table of its register. -/
structure FieldRow where
  name : String
  lsb : Nat
  msb : Nat
  access : String
  reset : Option Nat
  displayName : Option String
  /-- The description as markup. -/
  desc : Option String
  encode : List EncodeRow

namespace FieldRow

def bits (f : FieldRow) : String :=
  if f.lsb = f.msb then "[" ++ toString f.lsb ++ "]"
  else "[" ++ toString f.msb ++ ":" ++ toString f.lsb ++ "]"

/-- The reset value in the digits that the field's width takes. -/
def resetText (f : FieldRow) : String :=
  match f.reset with
  | some value => "0x" ++ String.ofList (Text.hexPadded ((f.msb - f.lsb) / 4 + 1) value)
  | none => "-"

end FieldRow

/-- A name, with its dimensions if it is that of a whole array. -/
def arrayIdent (e : Element) : String :=
  match e.index, e.node.array with
  | none, some shape => e.node.name ++ subscripts shape.dimensions
  | _, _ => e.node.name

/-- Something on a line of its own. -/
def line (contents : Markup) : List Markup := [contents, lineEnd]

def headerCells (labels : List String) : List Markup :=
  labels.map fun label => plain "th" [.text label]

def rowOf (cells : List (List Markup)) : List Markup :=
  line (plain "tr" (cells.map (plain "td")))

/-- A row with a label and a value. -/
def labelled (label value : String) : List Markup :=
  line (plain "tr" [plain "th" [.text label], plain "td" [.text value]])

def table (kind : String) (rows : List Markup) : List Markup :=
  line (.element "table" [("class", kind)] (lineEnd :: rows))

def heading (e : Element) : List Markup :=
  let ident := arrayIdent e
  match e.node.displayName? with
  | some name => line (plain "h1" [.text (name ++ " "), plain "small" [.text ident]])
  | none => line (plain "h1" [.text ident])

/-- What is known about every node, given its size. -/
def summary (e : Element) (size : Nat) : List Markup :=
  table "props" (
    labelled "Path" e.path ++
    labelled "Type" e.node.kind.word ++
    labelled "Absolute Address" (Text.hex e.address) ++
    labelled "Base Offset" (Text.hex e.offset) ++
    labelled "Size" (Text.hex size) ++
    (match e.node.array with
      | none => []
      | some shape =>
        labelled "Array Dimensions"
          ("[" ++ ", ".intercalate (shape.dimensions.map toString) ++ "]") ++
        labelled "Array Stride" (Text.hex shape.stride)))

def descriptionBox (desc : String) : List Markup :=
  line (.element "div" [("class", "desc")] [lineEnd, .verbatim desc, lineEnd])

def description : Option String → List Markup
  | none => []
  | some desc => line (plain "h2" [.text "Description"]) ++ descriptionBox desc

/-- A row of a contents table, its offset in as many digits as the others. -/
def ChildRow.row (digits : Nat) (r : ChildRow) : List Markup :=
  let id := toString r.id
  rowOf [[.text ("0x" ++ String.ofList (Text.hexPadded digits r.offset))],
    [.element "a" [("class", "node-link"), ("data-id", id), ("href", "#" ++ id)] [.text r.ident]],
    [.text (r.displayName.getD "")]]

/-- The page of an address map or a register file. -/
def containerPage (e : Element) (size : Nat) (desc : Option String) (rows : List ChildRow) :
    List Markup :=
  heading e ++ summary e size ++ description desc ++
    line (plain "h2" [.text "Contents"]) ++
    table "contents" (
      line (plain "tr" (headerCells ["Offset", "Identifier", "Name"])) ++
      rows.flatMap (ChildRow.row (Text.addressDigits size)))

def FieldRow.row (f : FieldRow) : List Markup :=
  rowOf ([f.bits, f.name, f.access, f.resetText, f.displayName.getD ""].map fun cell =>
    [.text cell])

def EncodeRow.row (v : EncodeRow) : List Markup :=
  rowOf [[.text (Text.hex v.value)], [.text v.name], [.verbatim (v.desc.getD "")]]

/-- The section of a field, if there is more to tell than its row does. -/
def FieldRow.details (f : FieldRow) : List Markup :=
  if f.desc.isNone && f.encode.isEmpty then []
  else
    line (.element "h3" [("id", f.name)] [.text (f.name ++ " " ++ f.bits)]) ++
    (match f.desc with
      | none => []
      | some desc => descriptionBox desc) ++
    (if f.encode.isEmpty then []
      else table "encode" (
        line (plain "tr" (headerCells ["Value", "Name", "Description"])) ++
        f.encode.flatMap EncodeRow.row))

/-- The page of a register. -/
def registerPage (e : Element) (size : Nat) (desc : Option String) (fields : List FieldRow) :
    List Markup :=
  heading e ++ summary e size ++ description desc ++
    line (plain "h2" [.text "Fields"]) ++
    table "fields" (
      line (plain "tr" (headerCells ["Bits", "Identifier", "Access", "Reset", "Name"])) ++
      fields.flatMap FieldRow.row) ++
    fields.flatMap FieldRow.details

/-- The page of a memory. -/
def memoryPage (e : Element) (size : Nat) (desc : Option String) : List Markup :=
  heading e ++ summary e size ++
    table "props" (
      ((e.node.memEntries?.map fun n => labelled "Entries" (toString n)).getD []) ++
      ((e.node.memWidth?.map fun n => labelled "Entry Width" (toString n)).getD [])) ++
    description desc

/-- The page that all others are shown in. -/
def indexPage (title : String) (options : HtmlOptions) : List Markup :=
  let script := fun (source : String) => line (.element "script" [("src", source)] [])
  let head := line (.void "meta" [("charset", "utf-8")]) ++
    line (plain "title" [.text title]) ++
    line (.void "link" [("rel", "stylesheet"), ("href", "css/ralbot.css")]) ++
    script "js/data.js" ++ script "js/ralbot.js"
  let home := match options.homeUrl with
    | none => []
    | some url => line (.element "a" [("class", "home"), ("href", url)] [.text "Home"])
  let banner := home ++ line (.element "span" [("class", "title")] [.text title])
  let body := line (plain "header" (lineEnd :: banner)) ++
    line (.element "nav" [("id", "sb-tree")] []) ++
    line (.element "main" [("id", "content")] []) ++
    line (plain "footer" [.text options.footer])
  line (.verbatim "<!DOCTYPE html>") ++
    line (plain "html" (lineEnd ::
      (line (plain "head" (lineEnd :: head)) ++
        line (.element "body" [("onload", "onPageLoad()")] (lineEnd :: body)))))

end RegisterMap.Html
