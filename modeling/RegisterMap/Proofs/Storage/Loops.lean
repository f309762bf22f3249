import RegisterMap.Proofs.Storage.Staging
import RegisterMap.Proofs.Storage.Steps

/-!
Files written or moved one after the other. Wherever the steps break off, the first files are
done and the others are not begun, but for the one that is being written.
-/

namespace RegisterMap

open Sights (Committed)

variable {v s : Sights} {ways : List Path} {done rest files : List (Path × ByteArray)} {root : Path}

theorem staysOnWay_committed {p : Path} (hp : p ∈ ways) :
    StaysOnWay p fun w => Committed v w ways done :=
  fun _ pieces _ _ _ h hpieces hleads hvacant => h.grow hvacant ⟨p, hp, pieces, hpieces, hleads⟩

/-- The paths of files below a directory are told apart by the places they lead to. -/
theorem not_hasFile_of_apart {w : Sights} (hw : w.IsTree) {file : Path × ByteArray}
    (hsplit : done ++ file :: rest = files) (hnormal : ∀ file ∈ files, file.1.IsNormal)
    (hapart : Apart files) {place : Location}
    (hleads : w.Leads (root.join file.1).start (root.join file.1).route place) :
    ∀ other ∈ filesBelow root done, ¬ w.HasFile other place := by
  subst hsplit
  intro other hother hhas
  obtain ⟨earlier, hearlier, rfl⟩ := List.mem_map.1 hother
  have hne := (List.pairwise_append.1 hapart).2.2 earlier hearlier file List.mem_cons_self
  exact hne (hhas.leads.namesOf_eq hw (hnormal earlier (List.mem_append_left _ hearlier))
    (hnormal file (List.mem_append_right _ List.mem_cons_self)) hleads)

/-- Some files are written below a directory, maybe not to their ends. -/
def BrokenOff (v : Sights) (root : Path) (files : List (Path × ByteArray)) (w : Sights) : Prop :=
  ∃ put, (∀ file ∈ put, file.1 ∈ waysBelow root files) ∧ Committed v w (waysBelow root files) put

namespace Disk

theorem ends_writeBelow (hsplit : done ++ rest = files) (hnormal : ∀ file ∈ files, file.1.IsNormal)
    (hapart : Apart files) :
    EndsOr (fun w => Committed v w (waysBelow root files) (filesBelow root done))
      (fileSystem.writeBelow root rest)
      (fun _ w => Committed v w (waysBelow root files) (filesBelow root files))
      (BrokenOff v root files) := by
  induction rest generalizing done with
  | nil =>
    rw [List.append_nil] at hsplit
    exact .pure fun _ _ h => hsplit ▸ h
  | cons file rest ih =>
    have hmem : file ∈ files := hsplit ▸ List.mem_append_right _ List.mem_cons_self
    have hdone : ∀ file ∈ filesBelow root done, file.1 ∈ waysBelow root files :=
      path_mem_waysBelow fun file hfile => hsplit ▸ List.mem_append_left _ hfile
    have hparent : EndsOr (fun w => Committed v w (waysBelow root files) (filesBelow root done))
        (fileSystem.requireParent (root.join file.1))
        (fun _ w => Committed v w (waysBelow root files) (filesBelow root done))
        (BrokenOff v root files) :=
      (ends_requireParent (staysOnWay_committed (join_mem_waysBelow hmem))).mono_failed
        fun w _ h => ⟨_, hdone, h⟩
    have hwrite : EndsOr (fun w => Committed v w (waysBelow root files) (filesBelow root done))
        (FileSystem.require (root.join file.1) (fileSystem.write (root.join file.1) file.2))
        (fun _ w => Committed v w (waysBelow root files)
          (filesBelow root (done ++ [file])))
        (BrokenOff v root files) := by
      refine .require (.of_forall fun w hw hbefore => ?_)
      refine ends_write.mono fun ok w' _ h => ?_
      rcases h with ⟨rfl, rfl⟩ | ⟨place, part, hcan, rfl, hpart⟩
      · exact ⟨_, hdone, hbefore⟩
      · have hput := hbefore.put part hcan
          (not_hasFile_of_apart hw hsplit hnormal hapart hcan.leads)
        cases ok with
        | false =>
          refine ⟨_, fun file hfile => ?_, hput⟩
          rcases List.mem_append.1 hfile with hfile | hfile
          · exact hdone file hfile
          · exact List.mem_singleton.1 hfile ▸ join_mem_waysBelow hmem
        | true =>
          obtain rfl := hpart rfl
          simpa [filesBelow] using hput
    exact hparent.bind fun _ => hwrite.bind fun _ => ih (by simpa using hsplit)

/-- A staged file is moved to where a path leads that avoids what is staged. -/
theorem ends_move_staged {staging source target : Path} {above place : Location} {name : String}
    {content : ByteArray} (hsite : v.Site staging above name) (htarget : target.Avoids name)
    (hfile : s.HasFile (source, content) place) (hplace : above ++ [name] <+: place) :
    Ends (· = s) (fileSystem.move source target) fun ok w =>
      if ok then ∃ new, (s.without (above ++ [name])).CanHold target new ∧
        ¬ above ++ [name] <+: new ∧ s.Keeps w ∧
        w = Function.update (s.without place) new (some (.file content)) ∧
        w.without (above ++ [name]) =
          Function.update (s.without (above ++ [name])) new (some (.file content))
      else w = s := by
  refine .of_forall fun w hw hbefore => ?_
  subst hbefore
  have hsource (old : Location) (hold : w.resolve source = .directory old) :
      ¬ old <+: [workingName] := by
    obtain ⟨-, hleads, hdirectory⟩ := (Sights.resolve_eq_directory_iff hw).1 hold
    obtain rfl := hleads.unique hw hfile.leads (hw.start source)
    rw [hfile.holds] at hdirectory
    cases hdirectory
  refine (ends_move hsource).mono fun ok w' _ h => ?_
  cases ok with
  | false => exact h
  | true =>
    obtain ⟨new, hcan, rfl⟩ := Sights.Moves.file_of_leads hw hfile.leads hfile.holds h
    obtain ⟨hcanBeside, hnot⟩ := hsite.canHold_without htarget hcan
    have hkeep := Sights.keeps_without hw hfile.holds
    have hstill : w.without place new ≠ some .directory := by
      rw [Sights.without]
      split
      · simp
      · exact hcan.not_directory
    refine ⟨new, hcanBeside, hnot, hkeep.trans (Sights.keeps_update (.inl hstill)), rfl, ?_⟩
    rw [Sights.without_update_beside hnot, Sights.without_without hplace]

end Disk

/-- While staged files are moved, those that wait are in the staging directory, and beside it
those that are done are below the destination. -/
structure Moving (v : Sights) (aside : Location) (root destination : Path) (ways : List Path)
    (done rest : List (Path × ByteArray)) (w : Sights) : Prop where
  waiting : ∀ file ∈ rest, ∃ place, aside <+: place ∧ w.HasFile (root.join file.1, file.2) place
  committed : Committed v (w.without aside) ways (filesBelow destination done)
  isDirectory : done ≠ [] → ∃ base,
    (w.without aside).Leads destination.start destination.route base ∧
      w.without aside base = some .directory

namespace Disk

section Moving

variable {v₀ : Sights} {staging destination : Path} {above : Location} {name : String}

theorem staysOnWay_moving {p : Path} (hsite : v.Site staging above name) (hp : p.Avoids name)
    (hway : p ∈ ways) :
    StaysOnWay p fun w => s.Keeps w ∧
      Moving v₀ (above ++ [name]) root destination ways done rest w := by
  rintro w pieces place - - ⟨hkeep, h⟩ hpieces hleads hvacant
  obtain ⟨hbeside, hnot⟩ := hsite.leads_without hp hpieces hleads
  have hgrow : w.Keeps (Function.update w place (some .directory)) := Sights.keeps_update (.inr rfl)
  have hwithout := Sights.without_update_beside (v := w) hnot (some Sight.directory)
  have hnone : w.without (above ++ [name]) place = none := by
    rw [Sights.without_beside hnot, hvacant]
  refine ⟨hkeep.trans hgrow, fun file hfile => ?_, ?_, fun hdone => ?_⟩
  · obtain ⟨other, hother, hhas⟩ := h.waiting file hfile
    have hne : other ≠ place := by
      rintro rfl
      exact hnot hother
    exact ⟨other, hother, hhas.keep hgrow (Function.update_of_ne hne _ _)⟩
  · rw [hwithout]
    exact h.committed.grow hnone ⟨p, hway, pieces, hpieces, hbeside⟩
  · obtain ⟨base, hbase, hdirectory⟩ := h.isDirectory hdone
    have hgrowBeside : (w.without (above ++ [name])).Keeps
        (Function.update (w.without (above ++ [name])) place (some .directory)) :=
      Sights.keeps_update (.inr rfl)
    rw [hwithout]
    exact ⟨base, hbase.keep hgrowBeside, hgrowBeside base hdirectory⟩

/-- One file more is moved. -/
theorem moving_append {w w' : Sights} {file : Path × ByteArray} {new place : Location}
    (hsite : v.Site staging above name) (hw : w.IsTree) (hsplit : done ++ file :: rest = files)
    (hnormal : ∀ file ∈ files, file.1.IsNormal) (hapart : Apart files) (hroute : file.1.route ≠ [])
    (h : Moving v₀ (above ++ [name]) root destination ways done (file :: rest) w)
    (hfile : w.HasFile (root.join file.1, file.2) place)
    (hcan : (w.without (above ++ [name])).CanHold (destination.join file.1) new)
    (hnot : ¬ above ++ [name] <+: new) (hkeep : w.Keeps w')
    (hw' : w' = Function.update (w.without place) new (some (.file file.2)))
    (hbeside : w'.without (above ++ [name]) =
      Function.update (w.without (above ++ [name])) new (some (.file file.2))) :
    Moving v₀ (above ++ [name]) root destination ways (done ++ [file]) rest w' := by
  have htree := Sights.isTree_without hw hsite.beside_working
  have hnormalFile : file.1.IsNormal :=
    hnormal file (hsplit ▸ List.mem_append_right _ List.mem_cons_self)
  refine ⟨fun other hother => ?_, ?_, fun _ => ?_⟩
  · obtain ⟨found, hfound, hhas⟩ := h.waiting other (List.mem_cons_of_mem _ hother)
    have hne : found ≠ new := by
      rintro rfl
      exact hnot hfound
    have hgone : ¬ place <+: found := by
      rintro ⟨below, rfl⟩
      by_cases hnil : below = []
      · rw [hnil, List.append_nil] at hhas
        subst hsplit
        have hnames := (List.pairwise_cons.1 (List.pairwise_append.1 hapart).2.1).1 other hother
        exact hnames (hfile.leads.namesOf_eq hw hnormalFile (hnormal other
          (List.mem_append_right _ (List.mem_cons_of_mem _ hother))) hhas.leads)
      · have hdirectory := hw.above_append hnil (by rw [hhas.holds]; simp)
        rw [hfile.holds] at hdirectory
        cases hdirectory
    refine ⟨found, hfound, hhas.keep hkeep ?_⟩
    rw [hw', Function.update_of_ne hne, Sights.without_beside hgone]
  · have hput := h.committed.put file.2 hcan
      (not_hasFile_of_apart htree hsplit hnormal hapart hcan.leads)
    rw [hbeside]
    simpa [filesBelow] using hput
  · obtain ⟨base, hbase, -, -, hdirectory⟩ := hcan.leads.join htree hnormalFile
    have hgrow : (w.without (above ++ [name])).Keeps
        (Function.update (w.without (above ++ [name])) new (some (.file file.2))) :=
      Sights.keeps_update (.inl hcan.not_directory)
    rw [hbeside]
    exact ⟨base, hbase.keep hgrow, hgrow base (hdirectory hroute)⟩

theorem ends_moveBelow (v₀ : Sights) (hsite : v.Site staging above name)
    (hsplit : done ++ rest = files) (hnormal : ∀ file ∈ files, file.1.IsNormal)
    (hapart : Apart files) (hroutes : ∀ file ∈ files, file.1.route ≠ [])
    (havoids : ∀ file ∈ files, (destination.join file.1).Avoids name)
    (hways : ∀ file ∈ files, destination.join file.1 ∈ ways) :
    EndsOr (fun w => s.Keeps w ∧ Moving v₀ (above ++ [name]) root destination ways done rest w)
      (fileSystem.moveBelow root destination (rest.map (·.1)))
      (fun _ w => s.Keeps w ∧ Moving v₀ (above ++ [name]) root destination ways files [] w)
      fun w => s.Keeps w ∧ ∃ k < files.length,
        Moving v₀ (above ++ [name]) root destination ways (files.take k) (files.drop k) w := by
  induction rest generalizing done with
  | nil =>
    rw [List.append_nil] at hsplit
    exact .pure fun _ _ h => hsplit ▸ h
  | cons file rest ih =>
    have hmem : file ∈ files := hsplit ▸ List.mem_append_right _ List.mem_cons_self
    have hnext := @ih (done ++ [file]) (by simpa using hsplit)
    have hfailed {w : Sights}
        (h : Moving v₀ (above ++ [name]) root destination ways done (file :: rest) w) :
        ∃ k < files.length,
          Moving v₀ (above ++ [name]) root destination ways (files.take k) (files.drop k) w := by
      refine ⟨done.length, by simp [← hsplit], ?_⟩
      rwa [← hsplit, List.take_left, List.drop_left]
    have havoid := havoids file hmem
    have hway := hways file hmem
    refine .bind ((ends_requireParent (staysOnWay_moving hsite havoid hway)).mono_failed
      fun w _ h => ⟨h.1, hfailed h.2⟩) fun _ => ?_
    refine .bind (.require (.of_forall fun w hw ⟨hkeep, hbefore⟩ => ?_)) fun _ => hnext
    obtain ⟨place, hplace, hhas⟩ := hbefore.waiting file List.mem_cons_self
    refine (ends_move_staged hsite havoid hhas hplace).mono fun ok w' _ h => ?_
    cases ok with
    | false => exact h ▸ ⟨hkeep, hfailed hbefore⟩
    | true =>
      obtain ⟨new, hcan, hnot, hkeep', hw', hbeside⟩ := h
      exact ⟨hkeep.trans hkeep', moving_append hsite hw hsplit hnormal hapart (hroutes file hmem)
        hbefore hhas hcan hnot hkeep' hw' hbeside⟩

end Moving

end Disk

end RegisterMap
