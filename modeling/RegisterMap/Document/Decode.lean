import RegisterMap.Json.Reader
import RegisterMap.Model.Validate

/-!
Reading a register map from a JSON document. A record may be written as an
object, whose unknown members are passed over unread and whose known ones occur
once, or as the list of its members in order. The parts that are read may be
nested to a limit, which every function here takes as the number of levels that
are left.
-/

namespace RegisterMap

/-- How deeply the parts of a document that are read may be nested. -/
def documentLevels : Nat := 127

/-- Why a document gives no design. -/
inductive LoadError where
  | malformed
  | invalid (e : ModelError)
deriving DecidableEq, Repr

namespace Document

/-- The members of a record that have one of the names. -/
def record? (names : List String) : Json → Option (List (String × Json))
  | .object members => do
    let keyed ← members.mapM fun member => member.1.map fun key => (key, member.2)
    let known := keyed.filter fun member => names.contains member.1
    if (known.map (·.1)).Nodup then some known else none
  | .array items => if items.length ≤ names.length then some (names.zip items) else none
  | _ => none

def required? (members : List (String × Json)) (name : String) (read : Json → Option α) :
    Option α :=
  (members.lookup name).bind read

/-- A member that may be left out, and then has a default. -/
def orDefault? (members : List (String × Json)) (name : String) (default : α)
    (read : Json → Option α) : Option α :=
  match members.lookup name with
  | none => some default
  | some j => read j

/-- A member that may be left out or null. -/
def optional? (members : List (String × Json)) (name : String) (read : Json → Option α) :
    Option (Option α) :=
  match members.lookup name with
  | none => some none
  | some .null => some none
  | some j => (read j).map some

def text? : Json → Option String
  | .text s => s
  | _ => none

/-- Plain digits that make a number below a bound. -/
def numberBelow? (bound : Nat) : Json → Option Nat
  | .number (.natural n) => if n < bound then some n else none
  | _ => none

def word? (j : Json) : Option Nat := numberBelow? Word.limit j

def narrowWord? (j : Json) : Option Nat := numberBelow? Word.narrowLimit j

/-- An array, each of its items read with one level less. -/
def list? (read : Nat → Json → Option α) (levels : Nat) (j : Json) : Option (List α) :=
  match levels, j with
  | left + 1, .array items => items.mapM (read left)
  | _, _ => none

def enumeratedValue? (j : Json) : Option EnumeratedValue := do
  let members ← record? ["name", "value", "display_name", "desc"] j
  let name ← required? members "name" text?
  let value ← required? members "value" word?
  let displayName ← optional? members "display_name" text?
  let desc ← optional? members "desc" text?
  some { name, value, displayName, desc }

/-- A property value is read whole, with what its records pass over, before its
kind is told. -/
def propertyValue? (levels : Nat) (j : Json) : Option PropertyValue :=
  if j.depth ≤ levels && j.isSound then
    match j with
    | .bool b => some (.bool b)
    | .text s => s.map .text
    | .array items => (items.mapM enumeratedValue?).map .encode
    | _ => (word? j).map .int
  else none

/-- Of the properties with one key the last one counts. -/
def properties? (levels : Nat) (j : Json) : Option Properties :=
  match levels, j with
  | left + 1, .object members => do
    let entries ← members.mapM fun member => do
      let key ← member.1
      let value ← propertyValue? left member.2
      some (key, value)
    some (.ofList entries)
  | _, _ => none

/-- A kind is a word, or an object with that word as its only key. -/
def kind? (levels : Nat) : Json → Option Kind
  | .text s => s.bind Kind.ofWord?
  | .object [(some key, .null)] => if 0 < levels then Kind.ofWord? key else none
  | _ => none

def arrayShape? (levels : Nat) (j : Json) : Option ArrayShape :=
  match levels with
  | 0 => none
  | left + 1 => do
    let members ← record? ["dimensions", "stride"] j
    let dimensions ← required? members "dimensions" (list? (fun _ => word?) left)
    let stride ← required? members "stride" word?
    some { dimensions, stride }

def field? (levels : Nat) (j : Json) : Option Field :=
  match levels with
  | 0 => none
  | left + 1 => do
    let members ← record? ["inst_name", "lsb", "msb", "properties"] j
    let name ← required? members "inst_name" text?
    let lsb ← required? members "lsb" narrowWord?
    let msb ← required? members "msb" narrowWord?
    let properties ← orDefault? members "properties" .empty (properties? left)
    some { name, lsb, msb, properties }

mutual

def node? (levels : Nat) (j : Json) : Option Node :=
  match levels with
  | 0 => none
  | left + 1 => do
    let members ← record? ["inst_name", "kind", "offset", "size", "array", "properties",
      "children", "fields", "source"] j
    let name ← required? members "inst_name" text?
    let kind ← required? members "kind" (kind? left)
    let offset ← orDefault? members "offset" 0 word?
    let size ← optional? members "size" word?
    let array ← optional? members "array" (arrayShape? left)
    let properties ← orDefault? members "properties" .empty (properties? left)
    let children ← orDefault? members "children" [] (nodes? left)
    let fields ← orDefault? members "fields" [] (list? field? left)
    let source ← optional? members "source" fun j => (text? j).map Path.mk
    some { name, kind, offset, size, array, properties, children, fields, source }

def nodes? (levels : Nat) (j : Json) : Option (List Node) :=
  match levels, j with
  | left + 1, .array items => items.mapM fun item => node? left item
  | _, _ => none

end

def design? (j : Json) : Option Design := do
  let members ← record? ["top"] j
  let top ← required? members "top" (node? (documentLevels - 1))
  some { top }

end Document

/-- The design of a document, if it is one and keeps the invariants. -/
def Design.ofJson (j : Json) : Except LoadError Design :=
  match Document.design? j with
  | none => .error .malformed
  | some design =>
    match design.top.validate with
    | .error e => .error (.invalid e)
    | .ok () => .ok design

/-- The design that a text writes. -/
def Design.ofText (s : String) : Except LoadError Design :=
  match Json.ofText? s with
  | none => .error .malformed
  | some j => Design.ofJson j

end RegisterMap
