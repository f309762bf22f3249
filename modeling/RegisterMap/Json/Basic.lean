import RegisterMap.Decimal

/-!
JSON values as they stand in a document: members in their order and with their
repetitions, numbers by what is written, and texts that may turn out not to be
texts at all.
-/

namespace RegisterMap

/-- A number of a document. Plain digits that make a word are a natural number; a
sign, a fraction, an exponent or more digits make it a decimal, whatever its
value. -/
inductive Json.Number where
  | natural (n : Nat)
  | decimal (negative : Bool) (digits : Nat) (exponent : Int)
deriving DecidableEq, Repr

/-- The content of a quoted string, none when half of a surrogate pair stands
alone in it. -/
abbrev Json.Text := Option String

inductive Json where
  | null
  | bool (b : Bool)
  | number (n : Json.Number)
  | text (s : Json.Text)
  | array (items : List Json)
  | object (members : List (Json.Text × Json))

namespace Json

instance : Inhabited Json := ⟨.null⟩

def nat (n : Nat) : Json := .number (.natural n)

def str (s : String) : Json := .text (some s)

/-- An object from members whose keys are texts. -/
def record (members : List (String × Json)) : Json :=
  .object (members.map fun member => (some member.1, member.2))

def ofOption (f : α → Json) : Option α → Json
  | none => .null
  | some a => f a

/-- Whether a number is finite as a double. -/
def Number.isFinite : Number → Bool
  | .natural _ => true
  | .decimal _ digits exponent => Decimal.isFiniteScaled digits exponent

mutual

/-- How deeply arrays and objects are nested, the outermost counting as one. -/
def depth : Json → Nat
  | .array items => depthOfItems items + 1
  | .object members => depthOfMembers members + 1
  | _ => 0

def depthOfItems : List Json → Nat
  | [] => 0
  | item :: items => max item.depth (depthOfItems items)

def depthOfMembers : List (Text × Json) → Nat
  | [] => 0
  | (_, value) :: members => max value.depth (depthOfMembers members)

end

mutual

/-- Every text is one, and every number is finite. -/
def isSound : Json → Bool
  | .number n => n.isFinite
  | .text s => s.isSome
  | .array items => itemsSound items
  | .object members => membersSound members
  | _ => true

def itemsSound : List Json → Bool
  | [] => true
  | item :: items => item.isSound && itemsSound items

def membersSound : List (Text × Json) → Bool
  | [] => true
  | (key, value) :: members => key.isSome && value.isSound && membersSound members

end

end Json

end RegisterMap
