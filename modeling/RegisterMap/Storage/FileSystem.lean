import RegisterMap.Storage.FileTree

/-!
The steps that files are written and read in. Any of them may fail; how they
are carried out is left open, and a disk in memory is one way.
-/

namespace RegisterMap

/-- How making a directory ends. -/
inductive Making where
  | made
  /-- Its parent directory is missing. -/
  | orphaned
  | refused
deriving DecidableEq, Repr

structure FileSystem (m : Type → Type) where
  makeDirectory : Path → m Making
  isDirectory : Path → m Bool
  isPresent : Path → m Bool
  /-- Makes a directory in a directory, under a name that is not in use and that
  some paths do not go through. -/
  stage : (dir : Path) → (paths : List Path) → m (Option Path)
  /-- Makes a file with nothing in it under such a name. -/
  stageFile : (dir : Path) → (paths : List Path) → m (Option Path)
  write : Path → ByteArray → m Bool
  move : (source target : Path) → m Bool
  /-- Removes a file, or a directory and all in it. -/
  discard : Path → m Unit
  read : Path → m (Option ByteArray)
  /-- What the system says of why a step at a path failed, if it says anything. -/
  cause : Path → String := fun _ => ""

/-- What happens to a step: nothing, or that it fails. A failing write may leave the
beginning of its file. -/
inductive Fault where
  | none
  | failed
  | cutOff (bytes : Nat)
deriving DecidableEq, Repr

/-- A disk in memory. Each coming fault is what happens to the next step. -/
structure Disk where
  tree : FileTree := .empty
  faults : List Fault := []

namespace Disk

/-- What happens to the next step. -/
def fault : StateM Disk Fault :=
  modifyGet fun d => (d.faults.headD .none, { d with faults := d.faults.tail })

/-- Something that is asked of the tree, which is not so where the step fails. -/
def ask (question : FileTree → Bool) : StateM Disk Bool := do
  if (← fault) != .none then return false
  return question (← get).tree

/-- A step that changes the tree, if it can be done. -/
def change (step : FileTree → Option FileTree) : StateM Disk Bool := do
  match step (← get).tree with
  | some tree =>
    modify fun d => { d with tree }
    return true
  | none => return false

def write (p : Path) (content : ByteArray) : StateM Disk Bool := do
  match ← fault with
  | .none => change fun t => t.write? p content
  | .failed => return false
  | .cutOff bytes =>
    let _ ← change fun t => t.write? p (content.extract 0 bytes)
    return false

def move (source target : Path) : StateM Disk Bool := do
  if (← fault) != .none then return false
  change fun t => t.move? source target

def makeDirectory (p : Path) : StateM Disk Making := do
  if (← fault) != .none then return .refused
  let t := (← get).tree
  match t.resolve p with
  | .vacant place =>
    modify fun d => { d with tree := t.put place (.directory []) }
    return .made
  | .missing => return .orphaned
  | _ => return .refused

/-- The names of what is staged, all of one length. -/
def stagingName (n : Nat) : String := ".tmp" ++ toString (100000 + n)

/-- The first staging name that is no component of some paths and leads to nothing
in a directory. A tree with fewer entries than there are names to try has one. -/
def freshIn (t : FileTree) (dir : Path) (paths : List Path) : Option Path :=
  let used := paths.flatMap Path.components
  let name := (List.range (used.length + (FileTree.listEntries [] t).length + 1)).find? fun n =>
    !used.contains (.named (stagingName n)) &&
      match t.resolve (dir.join ⟨stagingName n⟩) with
      | .vacant _ => true
      | _ => false
  name.map fun n => dir.join ⟨stagingName n⟩

def stage (entry : Entry) (dir : Path) (paths : List Path) : StateM Disk (Option Path) := do
  if (← fault) != .none then return none
  let t := (← get).tree
  match freshIn t dir paths with
  | none => return none
  | some p =>
    match t.resolve p with
    | .vacant place =>
      modify fun d => { d with tree := t.put place entry }
      return some p
    | _ => return none

/-- Clearing away never fails. -/
def discard (p : Path) : StateM Disk Unit := do
  let t := (← get).tree
  match t.resolve p with
  | .directory place => modify fun d => { d with tree := t.remove place }
  | .file place _ => modify fun d => { d with tree := t.remove place }
  | _ => pure ()

def fileSystem : FileSystem (StateM Disk) where
  makeDirectory := makeDirectory
  isDirectory p := ask (·.isDirectory p)
  isPresent p := ask (·.isPresent p)
  stage := stage (.directory [])
  stageFile := stage (.file .empty)
  write := write
  move := move
  discard := discard
  read p := do
    if (← fault) != .none then return none
    return (← get).tree.file? p

end Disk

end RegisterMap
