import RegisterMap.Path
import Std.Data.TreeMap

/-!
Files by their paths, in the order of the paths. Paths with the same components
name the same file, which keeps the path it was first put under.
-/

namespace RegisterMap

instance : Std.TransOrd Path.Component :=
  inferInstanceAs (Std.TransCmp (compareLex (compareOn Path.Component.rank)
    (compareOn Path.Component.name)))

instance : Std.TransCmp Path.order :=
  inferInstanceAs (Std.TransCmp (compareOn Path.components))

structure FileSet where
  contents : Std.TreeMap Path ByteArray Path.order := ∅

instance : Inhabited FileSet := ⟨{}⟩

namespace FileSet

/-- The path that a file has in the set, its own where there is none. -/
def pathOf (s : FileSet) (path : Path) : Path := (s.contents.getKey? path).getD path

/-- A file put at its place, or in the place of the one with its path. -/
def insert (s : FileSet) (path : Path) (content : ByteArray) : FileSet :=
  ⟨s.contents.insert (s.pathOf path) content⟩

def get? (s : FileSet) (path : Path) : Option ByteArray := s.contents[path]?

/-- A file put at its place, unless there is one with its path. -/
def insertNew (s : FileSet) (path : Path) (content : ByteArray) : FileSet :=
  if (s.get? path).isSome then s else s.insert path content

def insertAll (s : FileSet) (files : List (Path × ByteArray)) : FileSet :=
  files.foldl (fun s file => s.insert file.1 file.2) s

def ofList (files : List (Path × ByteArray)) : FileSet := insertAll {} files

/-- The files in the order of their paths. -/
def files (s : FileSet) : List (Path × ByteArray) := s.contents.toList

def paths (s : FileSet) : List Path := s.contents.keys

theorem order_pathOf (s : FileSet) (path : Path) : Path.order (s.pathOf path) path = .eq := by
  have hkey := Std.TreeMap.compare_getKey?_self (t := s.contents) (k := path)
  unfold pathOf
  cases h : s.contents.getKey? path with
  | none => exact Std.ReflCmp.compare_self
  | some p => simpa [h] using hkey

theorem get?_insert (s : FileSet) (path other : Path) (content : ByteArray) :
    (s.insert path content).get? other =
      if Path.order path other = .eq then some content else s.get? other := by
  have heq : Path.order (s.pathOf path) other = Path.order path other :=
    Std.TransCmp.congr_left (s.order_pathOf path)
  simp [get?, insert, Std.TreeMap.getElem?_insert, heq]

end FileSet

/-- The finished output of an export: a file, or a directory of files with paths
relative to it. -/
inductive Artifact where
  | file (content : ByteArray)
  | tree (files : FileSet)

def Artifact.text (s : String) : Artifact := .file s.toUTF8

end RegisterMap
