import RegisterMap.Text.Blank

/-!
Slash-separated paths. A path is kept as it was written, since that is how it
is shown, but it is compared, ordered and taken apart by its components, in
which empty pieces and inner dots do not count.
-/

namespace RegisterMap

structure Path where
  text : String
deriving DecidableEq, Repr, Inhabited

namespace Path

/-- What a path is made of; `current` only ever stands first. -/
inductive Component where
  | root
  | current
  | parent
  | named (name : String)
deriving DecidableEq, Repr

/-- The pieces of the text between slashes. -/
def pieces (p : Path) : List (List Char) := Text.splitAt '/' p.text.toList

def isAbsolute (p : Path) : Bool := p.text.toList.head? == some '/'

/-- Whether the piece at a position counts as a component. A dot counts only in
front. -/
def counts (position : Nat) (piece : List Char) : Bool :=
  !piece.isEmpty && (piece != ['.'] || position == 0)

/-- The counting pieces with their positions, in order. -/
def countingPieces (p : Path) : List (Nat × List Char) :=
  p.pieces.zipIdx.filterMap fun (piece, position) =>
    if counts position piece then some (position, piece) else none

def Component.ofPiece (piece : List Char) : Component :=
  if piece = ['.'] then .current
  else if piece = ['.', '.'] then .parent
  else .named (String.ofList piece)

def components (p : Path) : List Component :=
  (if p.isAbsolute then [.root] else []) ++ p.countingPieces.map fun piece => .ofPiece piece.2

/-- The last component, if it is a name. -/
def fileName? (p : Path) : Option String :=
  match p.components.getLast? with
  | some (.named name) => some name
  | _ => none

/-- The path without its last component, up to the end of the one before. -/
def parent? (p : Path) : Option Path :=
  match p.countingPieces.reverse with
  | [] => none
  | [_] => some ⟨if p.isAbsolute then "/" else ""⟩
  | _ :: (position, _) :: _ =>
    some ⟨String.ofList (Text.joinWith '/' (p.pieces.take (position + 1)))⟩

/-- The directory that a path lies in, the working directory for a bare name. -/
def directory (p : Path) : Path :=
  match p.parent? with
  | some above => if above.text.isEmpty then ⟨"."⟩ else above
  | none => ⟨"."⟩

def endsInSlash (p : Path) : Bool := p.text.toList.getLast? == some '/'

/-- A path continued by another, which replaces it when absolute. -/
def join (p q : Path) : Path :=
  if q.isAbsolute || p.text.isEmpty then q
  else if p.endsInSlash then ⟨p.text ++ q.text⟩
  else ⟨p.text ++ "/" ++ q.text⟩

/-- A dot and an extension put after the whole text. -/
def withSuffix (p : Path) (extension : String) : Path := ⟨p.text ++ "." ++ extension⟩

def Component.rank : Component → Nat
  | .root => 0
  | .current => 1
  | .parent => 2
  | .named _ => 3

def Component.name : Component → String
  | .named name => name
  | _ => ""

/-- The special components come first, the names by their characters. -/
instance : Ord Component := ⟨compareLex (compareOn Component.rank) (compareOn Component.name)⟩

/-- Paths are ordered component by component, a path after its beginnings. -/
def order : Path → Path → Ordering := compareOn components

end Path

end RegisterMap
