import RegisterMap.Model.Array

/-!
The invariants that exports rest on. Checking goes through the tree in
pre-order and stops at the first node that breaks one; the error names it by
its path, the instance names from the top with dots between them.
-/

namespace RegisterMap

inductive ModelError where
  | badProperty (path key value : String)
  | fieldRange (path : String) (lsb msb regWidth : Nat)
  | fieldOverlap (path first second : String)
  | badArray (path : String)
  | badNesting (path kind what : String)
deriving DecidableEq, Repr

def ModelError.message : ModelError → String
  | badProperty path key value =>
    path ++ ": property '" ++ key ++ "' has unsupported value '" ++ value ++ "'"
  | fieldRange path lsb msb regWidth =>
    path ++ ": field bits [" ++ toString msb ++ ":" ++ toString lsb ++ "] do not fit a " ++
      toString regWidth ++ "-bit register"
  | fieldOverlap path first second =>
    path ++ ": fields '" ++ first ++ "' and '" ++ second ++ "' overlap"
  | badArray path =>
    path ++ ": array dimensions must be non-empty, non-zero and fit a 64-bit address space"
  | badNesting path kind what => path ++ ": " ++ kind ++ " nodes cannot contain " ++ what

/-- The path of a part of something that has a path. -/
def childPath (path name : String) : String := path ++ "." ++ name

namespace ArrayShape

/-- There is an element, and the last one can be told from the first by a word. -/
def isValid (a : ArrayShape) : Bool :=
  match a.checkedCount? with
  | none => false
  | some count =>
    !a.dimensions.isEmpty && 0 < count && (Word.mul? a.stride (count - 1)).isSome

end ArrayShape

/-- A property that has to be one of some words, if it is there. -/
def checkWord (ofWord? : String → Option α) (p : Properties) (path key : String) :
    Except ModelError Unit :=
  match p.parsed ofWord? key with
  | .ok _ => .ok ()
  | .error value => .error (.badProperty path key value)

/-- A width that has to be a narrow word other than zero, if it is a number. -/
def checkWidth (p : Properties) (path key : String) : Except ModelError Unit :=
  match p.int? key with
  | none => .ok ()
  | some width =>
    if width = 0 ∨ Word.narrowLimit ≤ width then
      .error (.badProperty path key (toString width))
    else .ok ()

/-- A register holds whole bytes, one at least and eight at most. -/
def checkRegWidth (p : Properties) (path : String) : Except ModelError Unit :=
  let width := (p.int? "regwidth").getD 32
  if width = 0 ∨ width % 8 ≠ 0 ∨ 64 < width then
    .error (.badProperty path "regwidth" (toString width))
  else .ok ()

def Field.check (f : Field) (regPath : String) (regWidth : Nat) : Except ModelError Unit := do
  let path := childPath regPath f.name
  if f.msb < f.lsb ∨ regWidth ≤ f.msb then throw (.fieldRange path f.lsb f.msb regWidth)
  checkWord SoftwareAccess.ofWord? f.properties path "sw"
  checkWord HardwareAccess.ofWord? f.properties path "hw"
  checkWord ReadEffect.ofWord? f.properties path "onread"
  checkWord WriteEffect.ofWord? f.properties path "onwrite"

/-- The first two neighbours of a list in ascending order that share a bit. -/
def firstOverlap? : List Field → Option (Field × Field)
  | a :: b :: rest => if b.lsb ≤ a.msb then some (a, b) else firstOverlap? (b :: rest)
  | _ => none

/-- The fields by ascending low bit, equal ones in their order. -/
def sortFields (fields : List Field) : List Field :=
  fields.mergeSort fun a b => decide (a.lsb ≤ b.lsb)

def checkOverlap (path : String) (fields : List Field) : Except ModelError Unit :=
  match firstOverlap? (sortFields fields) with
  | some (a, b) => .error (.fieldOverlap path a.name b.name)
  | none => .ok ()

def checkFields (path : String) (regWidth : Nat) : List Field → Except ModelError Unit
  | [] => .ok ()
  | f :: fields => do
    f.check path regWidth
    checkFields path regWidth fields

namespace Node

/-- What a register has to satisfy besides its array. -/
def checkRegister (n : Node) (path : String) : Except ModelError Unit := do
  if !n.children.isEmpty then throw (.badNesting path n.kind.word "child nodes")
  checkRegWidth n.properties path
  checkWidth n.properties path "accesswidth"
  checkFields path n.regWidth n.fields
  checkOverlap path n.fields

/-- What a memory has to satisfy besides its array. -/
def checkMemory (n : Node) (path : String) : Except ModelError Unit := do
  if !n.children.isEmpty || !n.fields.isEmpty then
    throw (.badNesting path n.kind.word "children or fields")
  checkWidth n.properties path "memwidth"
  checkWord SoftwareAccess.ofWord? n.properties path "sw"

def checkArray (n : Node) (path : String) : Except ModelError Unit :=
  match n.array with
  | none => .ok ()
  | some a => if a.isValid then .ok () else .error (.badArray path)

def checkNoFields (n : Node) (path : String) : Except ModelError Unit :=
  if n.fields.isEmpty then .ok () else .error (.badNesting path n.kind.word "fields")

mutual

/-- The invariants of a node at a path and of all below it. -/
def validateAt (path : String) : Node → Except ModelError Unit
  | n@{ kind, children, .. } => do
    n.checkArray path
    match kind with
    | .reg => n.checkRegister path
    | .mem => n.checkMemory path
    | .addrmap | .regfile =>
      n.checkNoFields path
      validateAll path children

def validateAll (path : String) : List Node → Except ModelError Unit
  | [] => .ok ()
  | child :: rest => do
    validateAt (childPath path child.name) child
    validateAll path rest

end

/-- The invariants of a whole tree. -/
def validate (n : Node) : Except ModelError Unit := n.validateAt n.name

end Node

end RegisterMap
