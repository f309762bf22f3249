import RegisterMap.ExportError
import RegisterMap.FileSet
import RegisterMap.Storage.FileSystem

/-!
Writing an artifact. All of it is staged beside the destination first, as a file
or in a directory, and moved into place after that, so that a failure before the
first move leaves nothing behind but directories. A file, and a tree whose
destination is new, take one move; a tree over a directory is moved file by
file.
-/

namespace RegisterMap.FileSystem

variable {m : Type → Type} [Monad m] (fs : FileSystem m)

/-- Makes a directory where there is none, and as many as are given of those around
it. -/
def makeDirectoriesWithin (p : Path) (around : Nat) : m Bool :=
  if p.text.isEmpty then pure true
  else do
    match ← fs.makeDirectory p with
    | .made => pure true
    | .refused => fs.isDirectory p
    | .orphaned =>
      match around, p.parent? with
      | around + 1, some above =>
        if ← makeDirectoriesWithin above around then
          match ← fs.makeDirectory p with
          | .made => pure true
          | _ => fs.isDirectory p
        else pure false
      | _, _ => pure false

/-- Makes a directory and all directories around it that are not there. -/
def makeDirectories (p : Path) : m Bool := fs.makeDirectoriesWithin p p.countingPieces.length

/-- A step without which there is no going on; its failure is told by a path. -/
def require (p : Path) (step : m Bool) : ExceptT ExportError m Unit := do
  if !(← step) then throw (.io p)

def requireDirectory (p : Path) : ExceptT ExportError m Unit :=
  require p (fs.makeDirectories p)

def requireParent (p : Path) : ExceptT ExportError m Unit :=
  match p.parent? with
  | some above => fs.requireDirectory above
  | none => pure ()

/-- Steps with what is staged in the directory of a destination, which is cleared
away however they end. -/
def staged (stage : (dir : Path) → m (Option Path)) (destination : Path)
    (steps : Path → ExceptT ExportError m α) : ExceptT ExportError m α := do
  ExceptT.mk do
    let dir := destination.directory
    match ← (fs.requireDirectory dir).run with
    | .error e => return .error e
    | .ok () =>
      match ← stage dir with
      | none => return .error (.io dir)
      | some staging =>
        let result ← (steps staging).run
        fs.discard staging
        return result

/-- The staged file has a name that the destination does not have on its way. -/
def writeFile (destination : Path) (content : ByteArray) : ExceptT ExportError m Unit :=
  fs.staged (fs.stageFile · [destination]) destination fun file => do
    require file (fs.write file content)
    require destination (fs.move file destination)

/-- Writes files to their paths below a directory. -/
def writeBelow (root : Path) : List (Path × ByteArray) → ExceptT ExportError m Unit
  | [] => pure ()
  | (path, content) :: rest => do
    let file := root.join path
    fs.requireParent file
    require file (fs.write file content)
    writeBelow root rest

/-- Moves files from their paths below one directory to those below another. -/
def moveBelow (root target : Path) : List Path → ExceptT ExportError m Unit
  | [] => pure ()
  | path :: rest => do
    let file := target.join path
    fs.requireParent file
    require file (fs.move (root.join path) file)
    moveBelow root target rest

/-- The staging directory has a name that neither the destination nor a path of a
file has on its way. -/
def writeTree (destination : Path) (files : FileSet) : ExceptT ExportError m Unit :=
  fs.staged (fs.stage · (destination :: files.paths)) destination fun staging => do
    let root := staging.join ⟨"tree"⟩
    require root do return (← fs.makeDirectory root) == .made
    fs.writeBelow root files.files
    if ← fs.isPresent destination then fs.moveBelow root destination files.paths
    else require destination (fs.move root destination)

/-- Writes an artifact and answers with the paths of its files. -/
def writeArtifact (destination : Path) : Artifact → m (Except ExportError (List Path))
  | .file content => ExceptT.run do
    fs.writeFile destination content
    return [destination]
  | .tree files => ExceptT.run do
    fs.writeTree destination files
    return files.paths.map destination.join

end RegisterMap.FileSystem
