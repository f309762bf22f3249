import RegisterMap.Path

/-!
Files and directories in and around a working directory. A path starts from the
working directory and may lead out of it, into the outermost directory, which is
its own parent and which an absolute path starts from. A path is followed piece by
piece, and whatever is not the last piece has to be a directory. Names and paths
have a greatest length, counted in bytes, and a path with a null character leads
nowhere.
-/

namespace RegisterMap

/-- A place, by the names that lead to it. -/
abbrev Location := List String

/-- The name of the working directory, which is none that a path can have in it. -/
def workingName : String := ""

/-- The greatest length of a name. -/
def greatestName : Nat := 255

/-- The greatest length of a path. -/
def greatestPath : Nat := 4095

/-- Whether a path can be followed at all. -/
def Path.isFollowable (p : Path) : Bool :=
  p.text.utf8ByteSize ≤ greatestPath && !p.text.toList.contains '\x00'

inductive Entry where
  | file (content : ByteArray)
  | directory (entries : List (String × Entry))

/-- What is in a directory, by name. -/
abbrev FileTree := List (String × Entry)

/-- Where a path leads. -/
inductive Place where
  | directory (place : Location)
  | file (place : Location) (content : ByteArray)
  /-- Nothing is there, but the directory for it is. -/
  | vacant (place : Location)
  /-- A directory on the way is missing. -/
  | missing
  /-- The way goes through a file or cannot be followed. -/
  | blocked

namespace FileTree

/-- A working directory with nothing in or around it. -/
def empty : FileTree := [(workingName, .directory [])]

/-- Another entry for a name. -/
def set (t : FileTree) (name : String) (entry : Entry) : FileTree :=
  (name, entry) :: t.filter fun e => e.1 != name

/-- What is in the directory with a name, nothing where there is none. -/
def below (t : FileTree) (name : String) : FileTree :=
  match t.lookup name with
  | some (.directory entries) => entries
  | _ => []

/-- The outermost directory is always there. -/
def get? (t : FileTree) (place : Location) : Option Entry :=
  match place with
  | [] => some (.directory t)
  | name :: rest =>
    match t.lookup name with
    | some (.directory entries) => get? entries rest
    | some (.file content) => if rest.isEmpty then some (.file content) else none
    | none => none

/-- An entry put at a place, with the directories that it needs. -/
def put (t : FileTree) (place : Location) (entry : Entry) : FileTree :=
  match place with
  | [] => t
  | [name] => t.set name entry
  | name :: next :: rest => t.set name (.directory (put (t.below name) (next :: rest) entry))

/-- A place and all below it are removed. -/
def remove (t : FileTree) (place : Location) : FileTree :=
  match place with
  | [] => t
  | [name] => t.filter fun e => e.1 != name
  | name :: next :: rest =>
    match t.lookup name with
    | some (.directory entries) => t.set name (.directory (remove entries (next :: rest)))
    | _ => t

@[simp]
theorem lookup_set_self (t : FileTree) (name : String) (entry : Entry) :
    (t.set name entry).lookup name = some entry := by
  simp [set]

theorem lookup_filter_ne (t : FileTree) {name other : String} (h : other ≠ name) :
    (t.filter fun e => e.1 != name).lookup other = t.lookup other := by
  induction t with
  | nil => rfl
  | cons e rest ih =>
    by_cases hname : e.1 = name
    · have hne : (other == e.1) = false := beq_eq_false_iff_ne.2 (hname ▸ h)
      rw [List.filter_cons_of_neg (by simp [hname]), ih, List.lookup_cons, hne]
    · rw [List.filter_cons_of_pos (by simp [hname]), List.lookup_cons, List.lookup_cons, ih]

theorem lookup_set_of_ne (t : FileTree) {name other : String} (h : other ≠ name) (entry : Entry) :
    (t.set name entry).lookup other = t.lookup other := by
  have hne : (other == name) = false := beq_eq_false_iff_ne.2 h
  rw [set, List.lookup_cons, hne]
  exact t.lookup_filter_ne h

@[simp]
theorem get?_put_self (t : FileTree) {place : Location} (h : place ≠ []) (entry : Entry) :
    (t.put place entry).get? place = some entry := by
  induction place generalizing t with
  | nil => exact absurd rfl h
  | cons name rest ih =>
    cases rest with
    | nil => cases entry <;> simp [put, get?]
    | cons next rest =>
      rw [put, get?, lookup_set_self]
      exact ih (t.below name) (List.cons_ne_nil next rest)

/-- The directories on the way to another with what is in them, the innermost first. -/
abbrev Trail := List (String × FileTree)

def Trail.place (trail : Trail) : Location := (trail.map (·.1)).reverse

/-- The place that the pieces of a path lead to, from the directory that a trail
from the outermost one ends in. -/
def follow (t : FileTree) (trail : Trail) : List (List Char) → Place
  | [] => .directory trail.place
  | piece :: rest =>
    if piece = ['.'] then follow t trail rest
    else if piece = ['.', '.'] then follow t trail.tail rest
    else
      let name := String.ofList piece
      if greatestName < name.utf8ByteSize then .blocked
      else
        match ((trail.head?.map (·.2)).getD t).lookup name with
        | some (.directory entries) => follow t ((name, entries) :: trail) rest
        | some (.file content) =>
          if rest.isEmpty then .file (trail.place ++ [name]) content else .blocked
        | none => if rest.isEmpty then .vacant (trail.place ++ [name]) else .missing

/-- A file has no slash behind it. -/
def resolve (t : FileTree) (p : Path) : Place :=
  let start := if p.isAbsolute then [] else [(workingName, t.below workingName)]
  if p.text.isEmpty then .missing
  else if !p.isFollowable then .blocked
  else
    match t.follow start (p.pieces.filter (!·.isEmpty)) with
    | .file place content => if p.endsInSlash then .blocked else .file place content
    | place => place

/-- The file that a path leads to. -/
def file? (t : FileTree) (p : Path) : Option ByteArray :=
  match t.resolve p with
  | .file _ content => some content
  | _ => none

def isDirectory (t : FileTree) (p : Path) : Bool :=
  match t.resolve p with
  | .directory _ => true
  | _ => false

def isPresent (t : FileTree) (p : Path) : Bool := t.isDirectory p || (t.file? p).isSome

/-- A file written over a file or to where nothing is. -/
def write? (t : FileTree) (p : Path) (content : ByteArray) : Option FileTree :=
  match t.resolve p with
  | .file place _ => some (t.put place (.file content))
  | .vacant place => if p.endsInSlash then none else some (t.put place (.file content))
  | _ => none

/-- Whether a place is a directory with nothing in it. -/
def isHollow (t : FileTree) (place : Location) : Bool :=
  match t.get? place with
  | some (.directory []) => true
  | _ => false

/-- A file moved over a file or to where nothing is, or a directory with all
below it over a directory without anything or to where nothing is. -/
def move? (t : FileTree) (source target : Path) : Option FileTree :=
  match t.resolve source, t.resolve target with
  | .file old content, .file new _ => some ((t.remove old).put new (.file content))
  | .file old content, .vacant new =>
    if target.endsInSlash then none else some ((t.remove old).put new (.file content))
  | .directory old, .vacant new =>
    if old.isPrefixOf new then none else (t.get? old).map ((t.remove old).put new)
  | .directory old, .directory new =>
    if old.isPrefixOf new || !t.isHollow new then none
    else (t.get? old).map ((t.remove old).put new)
  | _, _ => none

/-- The place that a path names, whether anything is there or not. -/
def placeOf (p : Path) : Location :=
  workingName :: p.components.filterMap fun
    | .named name => some name
    | _ => none

/-- A file, or a directory where none is given; there may be one already. -/
def plant (t : FileTree) (place : Location) : Option ByteArray → FileTree
  | some content => t.put place (.file content)
  | none =>
    match t.get? place with
    | some (.directory _) => t
    | _ => t.put place (.directory [])

/-- Files by their paths, and directories where there is no content. -/
def ofList (entries : List (Path × Option ByteArray)) : FileTree :=
  entries.foldl (fun t entry => t.plant (placeOf entry.1) entry.2) empty

mutual

/-- The files of an entry at a place, and the directories that are empty. -/
def listEntry (place : Location) : Entry → List (Location × Option ByteArray)
  | .file content => [(place, some content)]
  | .directory [] => [(place, none)]
  | .directory (e :: entries) => listEntries place (e :: entries)

def listEntries (place : Location) : List (String × Entry) → List (Location × Option ByteArray)
  | [] => []
  | (name, entry) :: rest => listEntry (place ++ [name]) entry ++ listEntries place rest

end

/-- All files below the working directory, and the directories that are empty. -/
def listing (t : FileTree) : List (Location × Option ByteArray) :=
  listEntries [] (t.below workingName)

end FileTree

end RegisterMap
