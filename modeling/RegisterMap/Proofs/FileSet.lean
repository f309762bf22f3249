import Mathlib.Tactic.Common
import RegisterMap.FileSet

/-!
What is in a set of files: what is found at a path, which paths the files have, and how many
there are. A file that is put in unless there is one with its path leaves all others as they
are, with their paths.
-/

namespace RegisterMap.FileSet

variable {s : FileSet} {path other : Path} {content : ByteArray}

theorem get?_empty : ({} : FileSet).get? path = none := by simp [get?]

/-! Files that are put in. -/

theorem insertAll_cons (s : FileSet) (file : Path × ByteArray) (files : List (Path × ByteArray)) :
    s.insertAll (file :: files) = (s.insert file.1 file.2).insertAll files := rfl

theorem get?_insert_self : (s.insert path content).get? path = some content := by
  rw [get?_insert, if_pos Std.ReflCmp.compare_self]

theorem get?_insertAll_of_ne {files : List (Path × ByteArray)}
    (h : ∀ file ∈ files, Path.order file.1 path ≠ .eq) :
    (s.insertAll files).get? path = s.get? path := by
  induction files generalizing s with
  | nil => rfl
  | cons file rest ih =>
    rw [insertAll_cons, ih fun f hf => h f (List.mem_cons_of_mem file hf), get?_insert,
      if_neg (h file List.mem_cons_self)]

/-- Files with different paths are all kept. -/
theorem get?_insertAll_of_mem {files : List (Path × ByteArray)}
    (hdistinct : files.Pairwise fun f g => Path.order g.1 f.1 ≠ .eq)
    (hmem : (path, content) ∈ files) : (s.insertAll files).get? path = some content := by
  induction files generalizing s with
  | nil => cases hmem
  | cons file rest ih =>
    obtain ⟨hfirst, hrest⟩ := List.pairwise_cons.1 hdistinct
    rw [insertAll_cons]
    rcases List.mem_cons.1 hmem with rfl | hmem
    · rw [get?_insertAll_of_ne hfirst, get?_insert_self]
    · exact ih hrest hmem

theorem isSome_get?_insertNew (h : (s.get? other).isSome = true) :
    ((s.insertNew path content).get? other).isSome = true := by
  unfold insertNew
  split
  · exact h
  · rw [get?_insert]
    split
    · rfl
    · exact h

theorem isSome_get?_insertNew_self : ((s.insertNew path content).get? path).isSome = true := by
  unfold insertNew
  split
  case isTrue hthere => exact hthere
  case isFalse => rw [get?_insert_self, Option.isSome_some]

/-! The files by their own paths. -/

theorem mem_files_iff :
    (path, content) ∈ s.files ↔
      s.contents.getKey? path = some path ∧ s.get? path = some content :=
  Std.TreeMap.mem_toList_iff_getKey?_eq_some_and_getElem?_eq_some

theorem get?_of_mem_files (h : (path, content) ∈ s.files) : s.get? path = some content :=
  (mem_files_iff.1 h).2

theorem isSome_get?_of_mem {file : Path × ByteArray} (h : file ∈ s.files) :
    (s.get? file.1).isSome = true := by
  rw [get?_of_mem_files h, Option.isSome_some]

/-- The files of a set have different paths. -/
theorem pairwise_files (s : FileSet) :
    s.files.Pairwise fun f g => Path.order g.1 f.1 ≠ .eq := by
  refine (Std.TreeMap.distinct_keys_toList (t := s.contents)).imp fun hne hsame => hne ?_
  exact Std.OrientedCmp.eq_symm hsame

theorem get?_congr (h : Path.order path other = .eq) : s.get? path = s.get? other :=
  Std.TreeMap.getElem?_congr h

/-- What is found is a file of the set, whose path has the same components. -/
theorem exists_mem_files_of_get? (h : s.get? path = some content) :
    ∃ key, (key, content) ∈ s.files ∧ Path.order key path = .eq := by
  have hsome : (s.contents.getKey? path).isSome = true := by
    rw [← Std.TreeMap.mem_iff_isSome_getKey?, Std.TreeMap.mem_iff_isSome_getElem?]
    exact Option.isSome_of_eq_some h
  obtain ⟨key, hkey⟩ := Option.isSome_iff_exists.1 hsome
  have hsame : Path.order key path = .eq := by
    simpa [hkey] using Std.TreeMap.compare_getKey?_self (t := s.contents) (k := path)
  refine ⟨key, mem_files_iff.2 ⟨?_, ?_⟩, hsame⟩
  · rw [Std.TreeMap.getKey?_congr hsame, hkey]
  · rw [get?_congr hsame, h]

theorem contains_of_none (h : s.get? path = none) : s.contents.contains path = false := by
  rw [Std.TreeMap.contains_eq_isSome_getElem?]
  exact Option.isSome_eq_false_iff.2 (Option.isNone_iff_eq_none.2 h)

/-- A file that is put in where there is none keeps its own path. -/
theorem pathOf_of_none (h : s.get? path = none) : s.pathOf path = path := by
  rw [pathOf, Std.TreeMap.getKey?_eq_none_of_contains_eq_false (contains_of_none h),
    Option.getD_none]

theorem mem_files_insert_iff (h : s.get? path = none) {file : Path × ByteArray} :
    file ∈ (s.insert path content).files ↔ file = (path, content) ∨ file ∈ s.files := by
  obtain ⟨key, bytes⟩ := file
  rw [mem_files_iff, mem_files_iff, get?_insert, insert, pathOf_of_none h,
    Std.TreeMap.getKey?_insert]
  by_cases hsame : Path.order path key = .eq
  · have hnone : s.get? key = none := by rw [← get?_congr hsame, h]
    simp [hsame, hnone, eq_comm]
  · have hne : key ≠ path := by
      rintro rfl
      exact hsame Std.ReflCmp.compare_self
    simp [hsame, hne]

/-- Files that are there stay, under their paths. -/
theorem mem_files_insertNew_of_mem {file : Path × ByteArray} (h : file ∈ s.files) :
    file ∈ (s.insertNew path content).files := by
  unfold insertNew
  split
  case isTrue => exact h
  case isFalse hnone => exact (mem_files_insert_iff (by simpa using hnone)).2 (Or.inr h)

theorem of_mem_files_insertNew {file : Path × ByteArray}
    (h : file ∈ (s.insertNew path content).files) : file = (path, content) ∨ file ∈ s.files := by
  unfold insertNew at h
  split at h
  case isTrue => exact Or.inr h
  case isFalse hnone => exact (mem_files_insert_iff (by simpa using hnone)).1 h

theorem length_files_insert (h : s.get? path = none) :
    (s.insert path content).files.length = s.files.length + 1 := by
  rw [files, files, Std.TreeMap.length_toList, Std.TreeMap.length_toList, insert,
    pathOf_of_none h, Std.TreeMap.size_insert, contains_of_none h]
  rfl

/-- Files with different paths that are not in a set make it larger by as many. -/
theorem length_files_insertAll {files : List (Path × ByteArray)}
    (hdistinct : files.Pairwise fun f g => Path.order g.1 f.1 ≠ .eq)
    (hnew : ∀ file ∈ files, s.get? file.1 = none) :
    (s.insertAll files).files.length = s.files.length + files.length := by
  induction files generalizing s with
  | nil => rfl
  | cons file rest ih =>
    obtain ⟨hfirst, hrest⟩ := List.pairwise_cons.1 hdistinct
    obtain ⟨hself, hothers⟩ := List.forall_mem_cons.1 hnew
    have hstill : ∀ f ∈ rest, (s.insert file.1 file.2).get? f.1 = none := by
      intro f hf
      rw [get?_insert, if_neg fun hsame => hfirst f hf (Std.OrientedCmp.eq_symm hsame)]
      exact hothers f hf
    rw [insertAll_cons, ih hrest hstill, length_files_insert hself, List.length_cons]
    omega

end RegisterMap.FileSet
