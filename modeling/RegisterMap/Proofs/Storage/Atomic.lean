import RegisterMap.Proofs.Storage.Artifacts

/-!
Writing an artifact is atomic up to a prefix of its files. Whatever steps fail, some of the first
files are in their places with all their content, nothing else is changed but for directories,
and nothing is left of what was staged. After a failure the last file is not among them, and
none is where the artifact is a file or its destination was not there. Writing once more
changes nothing.
-/

namespace RegisterMap

open Sights (Committed)

/-- The names in a path. -/
def Path.names (p : Path) : Location :=
  p.components.filterMap fun
    | .named name => some name
    | _ => none

theorem Path.IsNormal.names_eq {p : Path} (h : p.IsNormal) : p.names = namesOf p.route := by
  rw [names, h.components_eq, List.filterMap_map]
  exact List.filterMap_some

namespace Artifact

/-- The paths of the files below the destination. -/
def keys : Artifact → List Path
  | .file _ => []
  | .tree files => files.paths

/-- The files in order, by the names that lead to them from the destination. -/
def contents : Artifact → List (Location × ByteArray)
  | .file content => [([], content)]
  | .tree files => files.files.map fun file => (file.1.names, file.2)

/-- The paths of the files at a destination, in order. -/
def paths (destination : Path) : Artifact → List Path
  | .file _ => [destination]
  | .tree files => files.paths.map destination.join

/-- The first files are written and nothing else is changed, but for directories that were not
there. -/
structure WrittenUpTo (artifact : Artifact) (destination : Path) (k : Nat)
    (before after : FileTree) : Prop where
  /-- Each of the first files has its place below the destination, and all its content. -/
  holds : ∀ file ∈ artifact.contents.take k, ∃ root,
    (after.resolve destination).location? = some root ∧
      after.sight? (root ++ file.1) = some (.file file.2)
  /-- A place that is changed is a new directory or has one of the first files. -/
  changes : ∀ place, after.sight? place ≠ before.sight? place →
    (before.sight? place = none ∧ after.sight? place = some .directory) ∨
      (before.sight? place ≠ some .directory ∧ ∃ root,
        (after.resolve destination).location? = some root ∧
          ∃ file ∈ artifact.contents.take k, place = root ++ file.1)
  /-- A name under which something is staged is in no place that is changed. -/
  noStaging : ∀ place n, after.sight? place ≠ before.sight? place →
    .named (Disk.stagingName n) ∉ (destination :: artifact.keys).flatMap Path.components →
      Disk.stagingName n ∉ place

/-! The files of an artifact with their paths. -/

def filesAt (destination : Path) : Artifact → List (Path × ByteArray)
  | .file content => [(destination, content)]
  | .tree files => filesBelow destination files.files

/-- The files with their paths and the names in them. -/
def entriesAt (destination : Path) : Artifact → List (Path × Location × ByteArray)
  | .file content => [(destination, [], content)]
  | .tree files => files.files.map fun file => (destination.join file.1, file.1.names, file.2)

theorem filesAt_eq (destination : Path) (artifact : Artifact) :
    artifact.filesAt destination =
      (artifact.entriesAt destination).map fun entry => (entry.1, entry.2.2) := by
  cases artifact with
  | file content => rfl
  | tree files => simp [filesAt, entriesAt, filesBelow]

theorem contents_eq (destination : Path) (artifact : Artifact) :
    artifact.contents = (artifact.entriesAt destination).map (·.2) := by
  cases artifact with
  | file content => rfl
  | tree files => simp [contents, entriesAt]

def ways (destination : Path) (artifact : Artifact) : List Path :=
  destination :: artifact.keys.map destination.join

/-- The first files are where their paths lead. -/
structure Done (artifact : Artifact) (destination : Path) (k : Nat) (v w : Sights) : Prop where
  committed : Committed v w (artifact.ways destination) ((artifact.filesAt destination).take k)
  located : (artifact.filesAt destination).take k ≠ [] →
    ∃ root, (w.resolve destination).location? = some root

end Artifact

namespace FileSet

variable (s : FileSet)

theorem paths_eq : s.paths = s.files.map (·.1) :=
  Std.TreeMap.map_fst_toList_eq_keys.symm

theorem apart_files (h : ∀ file ∈ s.files, file.1.IsNormal) : Apart s.files := by
  have hdistinct : s.files.Pairwise fun a b => Path.order a.1 b.1 ≠ .eq :=
    Std.TreeMap.distinct_keys_toList
  refine hdistinct.imp_of_mem fun {a b} ha hb hne => ?_
  exact (h a ha).namesOf_ne (h b hb) hne

end FileSet

variable {destination : Path} {artifact : Artifact}

namespace Disk

theorem TreeDone.done {files : FileSet} {k : Nat} {v w : Sights}
    (h : TreeDone v destination files.files k w) :
    (Artifact.tree files).Done destination k v w := by
  have hways : destination :: waysBelow destination files.files =
      (Artifact.tree files).ways destination := by
    rw [Artifact.ways, Artifact.keys, FileSet.paths_eq, List.map_map]
    rfl
  have htake : filesBelow destination (files.files.take k) =
      ((Artifact.tree files).filesAt destination).take k :=
    List.map_take
  have hcommitted := h.committed
  rw [hways, htake] at hcommitted
  refine ⟨hcommitted, fun hne => ?_⟩
  have hdirectory := h.isDirectory fun hnil => hne (by rw [← htake, hnil]; rfl)
  obtain ⟨root, hroot⟩ := hdirectory
  exact ⟨root, by rw [hroot]; rfl⟩

theorem ends_writeArtifact (v₀ : Sights) (destination : Path)
    (hkeys : ∀ key ∈ artifact.keys, key.IsNormal) :
    EndsOr (· = v₀) (ExceptT.mk (fileSystem.writeArtifact destination artifact))
      (fun written w => written = artifact.paths destination ∧
        artifact.Done destination artifact.contents.length v₀ w ∧ w.Reaches destination)
      fun w => ∃ k, artifact.Done destination k v₀ w ∧
        (artifact.contents ≠ [] → k < artifact.contents.length) ∧
        (v₀.IsDirectory destination.directory ∨ ['.', '.'] ∉ destination.route →
          ¬ v₀.IsPresent destination → k = 0) := by
  cases artifact with
  | file content =>
    refine EndsOr.bind (ends_writeFile.mono_failed fun w _ h => ?_)
      fun _ => .pure fun w hw h => ?_
    · exact ⟨0, ⟨h, fun hne => absurd List.take_zero hne⟩, fun _ => Nat.zero_lt_one,
        fun _ _ => rfl⟩
    · obtain ⟨hcommitted, hopen, hslash⟩ := h
      obtain ⟨place, hfile⟩ := hcommitted.holds _ List.mem_cons_self
      have hresolve : w.resolve destination = .file place content :=
        (Sights.resolve_eq_file_iff hw).2 ⟨hopen, hfile.leads, hfile.holds, hslash⟩
      exact ⟨rfl, ⟨hcommitted, fun _ => ⟨place, by rw [hresolve]; rfl⟩⟩, place, hfile.leads,
        by simp [hfile.holds]⟩
  | tree files =>
    have hnormal : ∀ file ∈ files.files, file.1.IsNormal := fun file hfile => hkeys file.1 <| by
      rw [Artifact.keys, files.paths_eq]
      exact List.mem_map_of_mem hfile
    have hlength : (Artifact.tree files).contents.length = files.files.length := List.length_map _
    have hapart := files.apart_files hnormal
    refine EndsOr.bind ((ends_writeTree hnormal hapart files.paths_eq).mono_failed
      fun w _ h => ?_) fun _ => .pure fun w hw h => ?_
    · obtain ⟨k, hdone, hk, habsent⟩ := h
      refine ⟨k, TreeDone.done hdone, fun hne => hlength ▸ hk fun hnil => hne ?_, habsent⟩
      rw [Artifact.contents, hnil, List.map_nil]
    · exact ⟨rfl, hlength ▸ TreeDone.done h.done, h.reaches⟩

end Disk

namespace Artifact

variable {k : Nat}

theorem exists_mem_filesAt (destination : Path) {key : Path} (hkey : key ∈ artifact.keys) :
    ∃ content, (destination.join key, content) ∈ artifact.filesAt destination := by
  cases artifact with
  | file content => exact absurd hkey List.not_mem_nil
  | tree files =>
    rw [keys, files.paths_eq] at hkey
    obtain ⟨file, hfile, rfl⟩ := List.mem_map.1 hkey
    exact ⟨file.2, List.mem_map_of_mem hfile⟩

/-- A file is below the destination, where its names lead. -/
theorem place_eq {w : Sights} (hw : w.IsTree) (hkeys : ∀ key ∈ artifact.keys, key.IsNormal)
    {root place : Location} (hroot : (w.resolve destination).location? = some root)
    {entry : Path × Location × ByteArray} (hentry : entry ∈ artifact.entriesAt destination)
    (hfile : w.HasFile (entry.1, entry.2.2) place) : place = root ++ entry.2.1 := by
  have hleads := Sights.leads_of_resolve hroot
  cases artifact with
  | file content =>
    obtain rfl := List.mem_singleton.1 hentry
    rw [List.append_nil]
    exact hfile.leads.unique hw hleads (hw.start destination)
  | tree files =>
    obtain ⟨file, hmem, rfl⟩ := List.mem_map.1 hentry
    have hnormal : file.1.IsNormal := hkeys file.1 <| by
      rw [keys, files.paths_eq]
      exact List.mem_map_of_mem hmem
    rw [hnormal.names_eq]
    exact (hleads.join_of_leads hw hnormal hfile.leads).2

/-- A way does not take a name that neither the destination nor a key has. -/
theorem avoids_of_mem_ways {name : String} (hname : Path.IsPlain name)
    (hkeys : ∀ key ∈ artifact.keys, key.IsNormal)
    (hunused : .named name ∉ (destination :: artifact.keys).flatMap Path.components) {way : Path}
    (hway : way ∈ artifact.ways destination) : way.Avoids name := by
  have havoids (path : Path) (hpath : path ∈ destination :: artifact.keys) : path.Avoids name :=
    Path.avoids_of_not_mem hname fun hmem => hunused (List.mem_flatMap.2 ⟨path, hpath, hmem⟩)
  rcases List.mem_cons.1 hway with rfl | hjoin
  · exact havoids way List.mem_cons_self
  · obtain ⟨key, hkey, rfl⟩ := List.mem_map.1 hjoin
    exact Path.avoids_join (hkeys key hkey).isAbsolute (havoids destination List.mem_cons_self)
      (havoids key (List.mem_cons_of_mem _ hkey))

theorem path_mem_ways {file : Path × ByteArray} (hfile : file ∈ artifact.filesAt destination) :
    file.1 ∈ artifact.ways destination := by
  cases artifact with
  | file content =>
    obtain rfl := List.mem_singleton.1 hfile
    exact List.mem_cons_self
  | tree files =>
    obtain ⟨own, hown, rfl⟩ := List.mem_map.1 hfile
    refine List.mem_cons_of_mem _ (List.mem_map_of_mem ?_)
    rw [keys, files.paths_eq]
    exact List.mem_map_of_mem hown

theorem Done.writtenUpTo {before after : FileTree} (hafter : after.IsRooted)
    (hkeys : ∀ key ∈ artifact.keys, key.IsNormal)
    (h : artifact.Done destination k before.sight? after.sight?) :
    artifact.WrittenUpTo destination k before after := by
  have hw := FileTree.isTree_sight? hafter
  have htake : (artifact.filesAt destination).take k =
      ((artifact.entriesAt destination).take k).map fun entry => (entry.1, entry.2.2) := by
    rw [filesAt_eq, List.map_take]
  have hcontents : artifact.contents.take k =
      ((artifact.entriesAt destination).take k).map (·.2) := by
    rw [contents_eq destination, List.map_take]
  have hcommitted := h.committed
  have hlocated {entry : Path × Location × ByteArray}
      (hentry : entry ∈ (artifact.entriesAt destination).take k) :
      ∃ root, (after.resolve destination).location? = some root ∧
        ∀ place, after.sight?.HasFile (entry.1, entry.2.2) place → place = root ++ entry.2.1 := by
    have hmem : (entry.1, entry.2.2) ∈ (artifact.filesAt destination).take k :=
      htake ▸ List.mem_map_of_mem hentry
    obtain ⟨root, hroot⟩ := h.located (List.ne_nil_of_mem hmem)
    refine ⟨root, FileTree.resolve_eq hafter destination ▸ hroot, fun place hfile => ?_⟩
    exact place_eq hw hkeys hroot (List.mem_of_mem_take hentry) hfile
  refine ⟨fun file hfile => ?_, fun place hplace => ?_, fun place n hplace hunused hmem => ?_⟩
  · rw [hcontents] at hfile
    obtain ⟨entry, hentry, rfl⟩ := List.mem_map.1 hfile
    obtain ⟨root, hroot, heq⟩ := hlocated hentry
    obtain ⟨place, hhas⟩ := hcommitted.holds _ (htake ▸ List.mem_map_of_mem hentry)
    exact ⟨root, hroot, heq place hhas ▸ hhas.holds⟩
  · refine (hcommitted.changes place hplace).imp (fun hmade => ⟨hmade.1, hmade.2.1⟩) ?_
    rintro ⟨hnot, file, hfile, hhas⟩
    rw [htake] at hfile
    obtain ⟨entry, hentry, rfl⟩ := List.mem_map.1 hfile
    obtain ⟨root, hroot, heq⟩ := hlocated hentry
    exact ⟨hnot, root, hroot, entry.2, hcontents ▸ List.mem_map_of_mem hentry, heq place hhas⟩
  · obtain ⟨way, hway, pieces, hpieces, hleads⟩ :
        after.sight?.OnWay (artifact.ways destination) place := by
      rcases hcommitted.changes place hplace with ⟨-, -, hway⟩ | ⟨-, file, hfile, hhas⟩
      · exact hway
      · exact ⟨file.1, path_mem_ways (List.mem_of_mem_take hfile), _, List.prefix_rfl, hhas.leads⟩
    have hname := Disk.isPlain_stagingName n
    rcases hleads.exists_of_mem hmem with hstart | ⟨piece, hpiece, -, heq⟩
    · rw [Path.start] at hstart
      split at hstart
      · exact List.not_mem_nil hstart
      · refine hname.ne_nil ?_
        rw [List.mem_singleton.1 hstart]
        rfl
    · exact avoids_of_mem_ways hname hkeys hunused hway piece (hpieces.subset hpiece) heq

end Artifact

namespace Disk

/-- Writing once more changes nothing. -/
theorem sight?_eq_of_again {v₀ v w : Sights} (hv : v.IsTree) (hw : w.IsTree)
    (hfirst : artifact.Done destination artifact.contents.length v₀ v)
    (hreaches : v.Reaches destination)
    (hagain : artifact.Done destination artifact.contents.length v w) : w = v := by
  have hall : (artifact.filesAt destination).take artifact.contents.length =
      artifact.filesAt destination := by
    rw [Artifact.filesAt_eq, Artifact.contents_eq destination, List.length_map, ← List.map_take,
      List.take_length]
  have hholds := hfirst.committed.holds
  rw [hall] at hholds
  have hcommitted := hagain.committed
  rw [hall] at hcommitted
  refine hcommitted.eq_of_holds hv hw hholds fun way hway => ?_
  rcases List.mem_cons.1 hway with rfl | hjoin
  · exact hreaches
  · obtain ⟨key, hkey, rfl⟩ := List.mem_map.1 hjoin
    obtain ⟨content, hfile⟩ := Artifact.exists_mem_filesAt destination hkey
    obtain ⟨place, hhas⟩ := hholds _ hfile
    exact ⟨place, hhas.leads, by simp [hhas.holds]⟩

/-- Whatever steps fail: an artifact that is written has all its files, and writing it once more
changes nothing. One that is not written has some of its first files: never all, and none where
nothing was at the destination, unless its way leads up again through directories that were not
there. -/
theorem writeArtifact_atomic (d : Disk) (destination : Path) (artifact : Artifact)
    (hroot : d.tree.IsRooted) (hkeys : ∀ key ∈ artifact.keys, key.IsNormal) :
    match (fileSystem.writeArtifact destination artifact).run d with
    | (.ok written, d') =>
      written = artifact.paths destination ∧
        artifact.WrittenUpTo destination artifact.contents.length d.tree d'.tree ∧
        ∀ faults again d'',
          (fileSystem.writeArtifact destination artifact).run { d' with faults } =
              (.ok again, d'') →
            d''.tree.sight? = d'.tree.sight?
    | (.error _, d') =>
      ∃ k, artifact.WrittenUpTo destination k d.tree d'.tree ∧
        (artifact.contents ≠ [] → k < artifact.contents.length) ∧
        (d.tree.isPresent destination = false →
          d.tree.isDirectory destination.directory = true ∨ .parent ∉ destination.components →
            k = 0) := by
  have hends (v : Sights) := ends_writeArtifact v destination hkeys
  split
  case h_1 written d' hrun =>
    obtain ⟨hroot', hwritten, hdone, hreaches⟩ := (hends _).of_run_eq_ok hroot rfl hrun
    refine ⟨hwritten, hdone.writtenUpTo hroot' hkeys, fun faults again d'' hagain => ?_⟩
    obtain ⟨hroot'', -, hdone', -⟩ :=
      (hends _).of_run_eq_ok (d := { d' with faults }) hroot' rfl hagain
    exact sight?_eq_of_again (FileTree.isTree_sight? hroot') (FileTree.isTree_sight? hroot'') hdone
      hreaches hdone'
  case h_2 e d' hrun =>
    obtain ⟨hroot', k, hdone, hk, habsent⟩ := (hends _).of_run_eq_error hroot rfl hrun
    refine ⟨k, hdone.writtenUpTo hroot' hkeys, hk, fun hnot hsettled => habsent ?_ ?_⟩
    · refine hsettled.imp (FileTree.isDirectory_iff hroot).1 fun hparent hup => hparent ?_
      exact Path.ofPiece_mem_components hup (by decide)
    · rw [← FileTree.isPresent_iff hroot, hnot]
      exact Bool.false_ne_true

/-- Two files by their names. -/
def twoFiles : Artifact := .tree (.ofList [(⟨"a1"⟩, "x".toUTF8), (⟨"b"⟩, "y".toUTF8)])

/-- A file is there with the path of the second one, which is not moved over it. -/
def failingLate : Disk where
  tree := .ofList [(⟨"out/b"⟩, some "old".toUTF8)]
  faults := List.replicate 16 .none ++ [.failed]

theorem failingLate_keeps_second :
    failingLate.tree.IsRooted ∧ (∀ key ∈ twoFiles.keys, key.IsNormal) ∧
      ∃ e d', (fileSystem.writeArtifact ⟨"out"⟩ twoFiles).run failingLate = (.error e, d') ∧
        (∃ k < 2, twoFiles.WrittenUpTo ⟨"out"⟩ k failingLate.tree d'.tree) ∧
        d'.tree.file? ⟨"out/a1"⟩ = some "x".toUTF8 ∧
        d'.tree.file? ⟨"out/b"⟩ = some "old".toUTF8 := by
  have hroot : failingLate.tree.IsRooted := rfl
  have hkeys : ∀ key ∈ twoFiles.keys, key.IsNormal := by
    have heq : twoFiles.keys = [⟨"a1"⟩, ⟨"b"⟩] := by decide +kernel
    have hfirst : Path.IsPlain "a1" := ⟨by decide, by decide, by decide, by decide⟩
    have hsecond : Path.IsPlain "b" := ⟨by decide, by decide, by decide, by decide⟩
    rw [heq]
    exact List.forall_mem_cons.2 ⟨hfirst.isNormal, List.forall_mem_singleton.2 hsecond.isNormal⟩
  have hrun : (match (fileSystem.writeArtifact ⟨"out"⟩ twoFiles).run failingLate with
      | (.ok _, _) => none
      | (.error _, d') => some (d'.tree.file? ⟨"out/a1"⟩, d'.tree.file? ⟨"out/b"⟩)) =
      some (some "x".toUTF8, some "old".toUTF8) := by
    decide +kernel
  have hatomic := writeArtifact_atomic failingLate ⟨"out"⟩ twoFiles hroot hkeys
  refine ⟨hroot, hkeys, ?_⟩
  split at hrun
  case h_1 => cases hrun
  case h_2 e d' heq =>
    rw [heq] at hatomic
    obtain ⟨k, hwritten, hk, -⟩ := hatomic
    have hlength : twoFiles.contents.length = 2 := by decide +kernel
    have hlt : k < 2 := hlength ▸ hk (List.ne_nil_of_length_pos (hlength ▸ Nat.two_pos))
    obtain ⟨hfirst, hsecond⟩ := Prod.mk.inj (Option.some.inj hrun)
    exact ⟨e, d', heq, ⟨k, hlt, hwritten⟩, hfirst, hsecond⟩

/-- Nothing is at a destination that leads up again through directories that are not there. They
are made, then it is there, and a file is moved before the next one meets a directory. -/
theorem writeArtifact_leaves_first :
    FileTree.empty.isPresent ⟨"a/b/.."⟩ = false ∧ FileTree.empty.file? ⟨"a/a1"⟩ = none ∧
      (match (fileSystem.writeArtifact ⟨"a/b/.."⟩ twoFiles).run {} with
        | (.ok _, _) => none
        | (.error _, d') => d'.tree.file? ⟨"a/a1"⟩) = some "x".toUTF8 := by
  decide +kernel

end Disk

end RegisterMap
