import RegisterMap.Text.Quoted

/-!
The property table of a node or a field. Keys are kept in ascending order and
each occurs once, so that two tables with the same entries are equal.
-/

namespace RegisterMap

/-- A named value of a field's encoding. -/
structure EnumeratedValue where
  name : String
  value : Nat
  displayName : Option String := none
  desc : Option String := none
deriving DecidableEq, Repr

inductive PropertyValue where
  | bool (b : Bool)
  | int (n : Nat)
  | text (s : String)
  | encode (values : List EnumeratedValue)
deriving DecidableEq, Repr

namespace PropertyValue

def shownOption : Option String → String
  | none => "None"
  | some s => "Some(" ++ Text.quoted s ++ ")"

def shownEnumerated (v : EnumeratedValue) : String :=
  "EnumeratedValue \x7b name: " ++ Text.quoted v.name ++ ", value: " ++ toString v.value ++
    ", display_name: " ++ shownOption v.displayName ++ ", desc: " ++ shownOption v.desc ++ " \x7d"

/-- A value as a message shows it: a text as it is, anything else with its kind. -/
def shown : PropertyValue → String
  | bool b => "Bool(" ++ (if b then "true" else "false") ++ ")"
  | int n => "Int(" ++ toString n ++ ")"
  | text s => s
  | encode values => "Encode([" ++ ", ".intercalate (values.map shownEnumerated) ++ "])"

end PropertyValue

structure Properties where
  entries : List (String × PropertyValue) := []
deriving DecidableEq, Repr, Inhabited

namespace Properties

def empty : Properties := {}

def isEmpty (p : Properties) : Bool := p.entries.isEmpty

def get? (p : Properties) (key : String) : Option PropertyValue := p.entries.lookup key

def contains (p : Properties) (key : String) : Bool := (p.get? key).isSome

/-- An entry put at its place, or in the place of the one with its key. -/
def insertEntry (key : String) (value : PropertyValue) :
    List (String × PropertyValue) → List (String × PropertyValue)
  | [] => [(key, value)]
  | (k, v) :: rest =>
    match compare key k with
    | .lt => (key, value) :: (k, v) :: rest
    | .eq => (key, value) :: rest
    | .gt => (k, v) :: insertEntry key value rest

def set (p : Properties) (key : String) (value : PropertyValue) : Properties :=
  ⟨insertEntry key value p.entries⟩

def ofList (entries : List (String × PropertyValue)) : Properties :=
  entries.foldl (fun p entry => p.set entry.1 entry.2) empty

def text? (p : Properties) (key : String) : Option String :=
  match p.get? key with
  | some (.text s) => some s
  | _ => none

/-- A whole number; a truth value counts as one or zero. -/
def int? (p : Properties) (key : String) : Option Nat :=
  match p.get? key with
  | some (.int n) => some n
  | some (.bool b) => some b.toNat
  | _ => none

/-- A truth value; a whole number is true unless zero. -/
def boolOr (p : Properties) (key : String) (default : Bool) : Bool :=
  match p.get? key with
  | some (.bool b) => b
  | some (.int n) => n != 0
  | _ => default

def encode? (p : Properties) : Option (List EnumeratedValue) :=
  match p.get? "encode" with
  | some (.encode values) => some values
  | _ => none

/-- A property that has to be one of some words. One that is there and is not is
an error, given by how the value is shown. -/
def parsed (ofWord? : String → Option α) (p : Properties) (key : String) :
    Except String (Option α) :=
  match p.get? key with
  | none => .ok none
  | some (.text s) =>
    match ofWord? s with
    | some a => .ok (some a)
    | none => .error s
  | some other => .error other.shown

/-- A property as one of some words, passing over all that is not. -/
def typed? (ofWord? : String → Option α) (p : Properties) (key : String) : Option α :=
  (p.text? key).bind ofWord?

end Properties

end RegisterMap
