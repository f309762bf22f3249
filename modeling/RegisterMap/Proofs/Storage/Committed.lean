import RegisterMap.Proofs.Storage.Changes
import RegisterMap.Proofs.Storage.Routes

/-!
What writing files one after the other comes to: each of them is where its path leads, new
directories are on the ways to them, and nothing else is changed. Further directories on the
ways and further files keep this, as does a directory of files that is moved as a whole.
-/

namespace RegisterMap.Sights

variable {v w u : Sights} {p : Path} {place : Location} {content : ByteArray}

/-- A file is where a path leads. -/
structure HasFile (v : Sights) (file : Path × ByteArray) (place : Location) : Prop where
  leads : v.Leads file.1.start file.1.route place
  holds : v place = some (.file file.2)

theorem HasFile.keep {file : Path × ByteArray} (hkeep : v.Keeps w) (hplace : w place = v place)
    (h : v.HasFile file place) : w.HasFile file place :=
  ⟨h.leads.keep hkeep, hplace.trans h.holds⟩

/-- A place on one of some ways. -/
def OnWay (v : Sights) (ways : List Path) (place : Location) : Prop :=
  ∃ way ∈ ways, ∃ pieces, pieces <+: way.route ∧ v.Leads way.start pieces place

theorem OnWay.keep {ways : List Path} (hkeep : v.Keeps w) (h : v.OnWay ways place) :
    w.OnWay ways place := by
  obtain ⟨way, hway, pieces, hpieces, hleads⟩ := h
  exact ⟨way, hway, pieces, hpieces, hleads.keep hkeep⟩

/-- Some files are put where their paths lead, and directories are made on some ways. -/
structure Committed (v w : Sights) (ways : List Path) (done : List (Path × ByteArray)) : Prop where
  holds : ∀ file ∈ done, ∃ place, w.HasFile file place
  changes : ∀ place, w place ≠ v place →
    (v place = none ∧ w place = some .directory ∧ w.OnWay ways place) ∨
      (v place ≠ some .directory ∧ ∃ file ∈ done, w.HasFile file place)

namespace Committed

variable {ways : List Path} {done : List (Path × ByteArray)}

theorem refl (v : Sights) (ways : List Path) : Committed v v ways [] :=
  ⟨fun _ h => absurd h List.not_mem_nil, fun _ h => absurd rfl h⟩

theorem keeps (h : Committed v w ways done) : v.Keeps w := by
  intro place hplace
  by_contra hnot
  rcases h.changes place (hplace ▸ hnot) with ⟨hnone, -⟩ | ⟨hdirectory, -⟩
  · rw [hplace] at hnone
    cases hnone
  · exact hdirectory hplace

theorem mono_ways {more : List Path} (hways : ∀ way ∈ ways, way ∈ more)
    (h : Committed v w ways done) : Committed v w more done := by
  refine ⟨h.holds, fun place hplace => (h.changes place hplace).imp_left ?_⟩
  rintro ⟨hnone, hdirectory, way, hway, hpieces⟩
  exact ⟨hnone, hdirectory, way, hways way hway, hpieces⟩

/-- What was there is seen where nothing is. -/
theorem eq_none (h : Committed v w ways done) (hplace : w place = none) : v place = none := by
  by_contra hsome
  rcases h.changes place (by rw [hplace]; exact Ne.symm hsome) with
    ⟨hnone, -⟩ | ⟨-, file, -, hfile⟩
  · exact hsome hnone
  · rw [hfile.holds] at hplace
    cases hplace

theorem reaches (h : Committed v w ways done) (hp : v.Reaches p) : w.Reaches p := by
  obtain ⟨place, hleads, hthere⟩ := hp
  exact ⟨place, hleads.keep h.keeps, fun hnone => hthere (h.eq_none hnone)⟩

/-- More is done after what is done, and the files that are there stay. -/
theorem trans {more : List (Path × ByteArray)} (h : Committed v w ways done)
    (hmore : Committed w u ways more)
    (hstay : ∀ file ∈ done, ∀ place, w.HasFile file place → u place = w place) :
    Committed v u ways (done ++ more) := by
  have hkeep := hmore.keeps
  refine ⟨fun file hmem => ?_, fun place hplace => ?_⟩
  · rcases List.mem_append.1 hmem with hmem | hmem
    · obtain ⟨place, hhas⟩ := h.holds file hmem
      exact ⟨place, hhas.keep hkeep (hstay file hmem place hhas)⟩
    · exact hmore.holds file hmem
  · by_cases hsame : u place = w place
    · refine (h.changes place (hsame ▸ hplace)).imp (fun ⟨hnone, hdirectory, hon⟩ => ?_)
        fun ⟨hnot, file, hmem, hhas⟩ => ?_
      · exact ⟨hnone, hsame.trans hdirectory, hon.keep hkeep⟩
      · exact ⟨hnot, file, List.mem_append_left _ hmem, hhas.keep hkeep hsame⟩
    · refine (hmore.changes place hsame).imp (fun ⟨hnone, hmade⟩ => ?_)
        fun ⟨hnot, file, hmem, hhas⟩ => ?_
      · exact ⟨h.eq_none hnone, hmade⟩
      · exact ⟨fun hplace => hnot (h.keeps place hplace), file, List.mem_append_right _ hmem, hhas⟩

theorem of_update_directory (hplace : w place = none) (hway : w.OnWay ways place) :
    Committed w (Function.update w place (some .directory)) ways [] := by
  refine ⟨fun _ h => absurd h List.not_mem_nil, fun other hother => .inl ?_⟩
  obtain rfl : other = place := by
    by_contra hne
    exact hother (Function.update_of_ne hne _ _)
  exact ⟨hplace, Function.update_self .., hway.keep (keeps_update (.inr rfl))⟩

theorem of_update_file (hcan : w.CanHold p place) :
    Committed w (Function.update w place (some (.file content))) ways [(p, content)] := by
  have hnew : Sights.HasFile (Function.update w place (some (.file content))) (p, content) place :=
    ⟨hcan.leads.keep (keeps_update (.inl hcan.not_directory)), Function.update_self ..⟩
  refine ⟨fun file hmem => ?_, fun other hother => .inr ?_⟩
  · obtain rfl := List.mem_singleton.1 hmem
    exact ⟨place, hnew⟩
  · obtain rfl : other = place := by
      by_contra hne
      exact hother (Function.update_of_ne hne _ _)
    exact ⟨hcan.not_directory, (p, content), List.mem_cons_self, hnew⟩

/-- One directory more on a way. -/
theorem grow (h : Committed v w ways done) (hplace : w place = none) (hway : w.OnWay ways place) :
    Committed v (Function.update w place (some .directory)) ways done := by
  have hgrown := h.trans (of_update_directory hplace hway) fun file _ other hhas => by
    refine Function.update_of_ne ?_ _ _
    rintro rfl
    rw [hhas.holds] at hplace
    cases hplace
  rwa [List.append_nil] at hgrown

/-- One file more, at a place of its own. -/
theorem put (h : Committed v w ways done) (content : ByteArray) (hcan : w.CanHold p place)
    (hother : ∀ file ∈ done, ¬ w.HasFile file place) :
    Committed v (Function.update w place (some (.file content))) ways (done ++ [(p, content)]) :=
  h.trans (of_update_file hcan) fun file hmem other hhas => by
    refine Function.update_of_ne ?_ _ _
    rintro rfl
    exact hother file hmem hhas

/-- Files that are all there already, on ways that are there, change nothing. -/
theorem eq_of_holds (hv : v.IsTree) (hw : w.IsTree) (h : Committed v w ways done)
    (hdone : ∀ file ∈ done, ∃ place, v.HasFile file place)
    (hways : ∀ way ∈ ways, v.Reaches way) : w = v := by
  funext place
  by_contra hplace
  rcases h.changes place hplace with
    ⟨hnone, -, way, hway, pieces, ⟨more, hroute⟩, hleads⟩ | ⟨-, file, hmem, hhas⟩
  · obtain ⟨led, hled, hsome⟩ := hways way hway
    rw [← hroute] at hled
    obtain ⟨between, hbetween, hthere⟩ := hled.beginning hv (hv.start way) hsome
    obtain rfl := (hbetween.keep h.keeps).unique hw hleads (hw.start way)
    exact hthere hnone
  · obtain ⟨other, hother⟩ := hdone file hmem
    obtain rfl := (hother.leads.keep h.keeps).unique hw hhas.leads (hw.start file.1)
    exact hplace (hhas.holds.trans hother.holds.symm)

end Committed

end RegisterMap.Sights
