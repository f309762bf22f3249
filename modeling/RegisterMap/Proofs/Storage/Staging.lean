import RegisterMap.Proofs.Storage.Committed
import RegisterMap.Proofs.Text.Number

/-!
Work on what is staged. It has a name that no other path takes, so these see all else as if
it were not there; a staged file, or what is in a staging directory, is moved out to where they
lead, file by file or as a whole.
-/

namespace RegisterMap

/-- A path that does not take a name. -/
def Path.Avoids (p : Path) (name : String) : Prop :=
  ∀ piece ∈ p.route, String.ofList piece ≠ name

/-- Files by their paths below another one. -/
def filesBelow (root : Path) (files : List (Path × ByteArray)) : List (Path × ByteArray) :=
  files.map fun file => (root.join file.1, file.2)

/-- The paths of files below another one. -/
def waysBelow (root : Path) (files : List (Path × ByteArray)) : List Path :=
  files.map fun file => root.join file.1

/-- Files that are told apart by their names. -/
def Apart (files : List (Path × ByteArray)) : Prop :=
  files.Pairwise fun a b => namesOf a.1.route ≠ namesOf b.1.route

theorem join_mem_waysBelow {root : Path} {files : List (Path × ByteArray)} {file : Path × ByteArray}
    (hfile : file ∈ files) : root.join file.1 ∈ waysBelow root files :=
  List.mem_map_of_mem hfile

/-- The files are on their ways. -/
theorem path_mem_waysBelow {root : Path} {files some : List (Path × ByteArray)}
    (hsome : ∀ file ∈ some, file ∈ files) :
    ∀ file ∈ filesBelow root some, file.1 ∈ waysBelow root files := by
  intro file hfile
  obtain ⟨own, hown, rfl⟩ := List.mem_map.1 hfile
  exact join_mem_waysBelow (hsome own hown)

theorem Path.avoids_join {p key : Path} {name : String} (hkey : key.isAbsolute = false)
    (hp : p.Avoids name) (havoids : key.Avoids name) : (p.join key).Avoids name := by
  intro piece hpiece
  rw [route_join hkey] at hpiece
  exact (List.mem_append.1 hpiece).elim (hp piece) (havoids piece)

theorem Path.avoids_of_not_mem {p : Path} {name : String} (hname : IsPlain name)
    (h : .named name ∉ p.components) : p.Avoids name := by
  rintro piece hpiece rfl
  refine h ?_
  have hdot : piece ≠ ['.'] := fun hdot => hname.ne_dot (by rw [hdot]; rfl)
  have hup : piece ≠ ['.', '.'] := fun hup => hname.ne_up (by rw [hup]; rfl)
  have hmem := ofPiece_mem_components hpiece hdot
  rwa [Component.ofPiece, if_neg hdot, if_neg hup] at hmem

theorem Disk.isPlain_stagingName (n : Nat) : Path.IsPlain (stagingName n) := by
  have hchars : (stagingName n).toList =
      ['.', 't', 'm', 'p'] ++ (toString (100000 + n)).toList := by
    rw [stagingName, String.toList_append]
    rfl
  refine ⟨?_, ?_, ?_, ?_⟩ <;> rw [hchars]
  · simp
  · simp
  · simp
  · simpa using Text.not_mem_toString (by decide) _

namespace Sights

variable {v w u : Sights} {p target key root : Path} {place base : Location}
  {files : List (Path × ByteArray)}

/-! Paths below another one. -/

/-- A path that is continued leads below where it led. -/
theorem Leads.join (hv : v.IsTree) (hkey : key.IsNormal)
    (h : v.Leads (p.join key).start (p.join key).route place) :
    ∃ base, v.Leads p.start p.route base ∧ v.Leads base key.route place ∧
      place = base ++ namesOf key.route ∧ (key.route ≠ [] → v base = some .directory) := by
  rw [Path.start_join hkey.isAbsolute, Path.route_join hkey.isAbsolute] at h
  by_cases hnil : key.route = []
  · rw [hnil, List.append_nil] at h
    rw [hnil]
    exact ⟨place, h, .here place, by simp [namesOf], fun hne => absurd rfl hne⟩
  · obtain ⟨base, hbase, hdirectory, hleads⟩ := h.split hv (hv.start p) hnil
    exact ⟨base, hbase, hleads, hleads.eq_append hkey.up_not_mem, fun _ => hdirectory⟩

/-- Where a path leads that is continued from a known place. -/
theorem Leads.join_of_leads (hv : v.IsTree) (hkey : key.IsNormal)
    (hp : v.Leads p.start p.route base) (h : v.Leads (p.join key).start (p.join key).route place) :
    v.Leads base key.route place ∧ place = base ++ namesOf key.route := by
  obtain ⟨found, hfound, hleads, heq, -⟩ := h.join hv hkey
  obtain rfl := hfound.unique hv hp (hv.start p)
  exact ⟨hleads, heq⟩

/-- Below a path, keys with other names lead to other places. -/
theorem Leads.namesOf_eq (hv : v.IsTree) {other : Path} (hkey : key.IsNormal)
    (hother : other.IsNormal) (h : v.Leads (root.join key).start (root.join key).route place)
    (h' : v.Leads (root.join other).start (root.join other).route place) :
    namesOf key.route = namesOf other.route := by
  obtain ⟨base, hbase, -, heq, -⟩ := h.join hv hkey
  exact List.append_cancel_left (heq.symm.trans (hbase.join_of_leads hv hother h').2)

/-- A way below a directory leads below it, or to what was there. -/
theorem OnWay.below (hv : v.IsTree) (hw : w.IsTree) (hkeep : v.Keeps w)
    (hnormal : ∀ file ∈ files, file.1.IsNormal) (hroot : v.Leads root.start root.route base)
    (hbase : v base = some .directory) (h : w.OnWay (waysBelow root files) place)
    (hplace : v place = none) :
    ∃ file ∈ files, ∃ pieces, pieces <+: file.1.route ∧ w.Leads base pieces place := by
  obtain ⟨way, hway, pieces, hpieces, hleads⟩ := h
  obtain ⟨file, hfile, rfl⟩ := List.mem_map.1 hway
  have habsolute := (hnormal file hfile).isAbsolute
  rw [Path.start_join habsolute] at hleads
  rw [Path.route_join habsolute] at hpieces
  have hpast : ∃ more, pieces = root.route ++ more ∧ more ≠ [] := by
    by_contra hnot
    have hshort : pieces <+: root.route := by
      rcases List.prefix_or_prefix_of_prefix hpieces (List.prefix_append _ _) with
        hshort | ⟨more, hmore⟩
      · exact hshort
      · have hnil : more = [] := by
          by_contra hne
          exact hnot ⟨more, hmore.symm, hne⟩
        have hwhole : pieces = root.route := by rw [← hmore, hnil, List.append_nil]
        exact hwhole ▸ List.prefix_rfl
    obtain ⟨rest, hrest⟩ := hshort
    rw [← hrest] at hroot
    obtain ⟨between, hbetween, hthere⟩ := hroot.beginning hv (hv.start root) (by simp [hbase])
    obtain rfl := (hbetween.keep hkeep).unique hw hleads (hw.start root)
    exact hthere hplace
  obtain ⟨more, rfl, hne⟩ := hpast
  obtain ⟨between, hbetween, -, hmore⟩ := hleads.split hw (hw.start root) hne
  obtain rfl := hbetween.unique hw (hroot.keep hkeep) (hw.start root)
  exact ⟨file, hfile, more, (List.prefix_append_right_inj _).1 hpieces, hmore⟩

/-- What is written below a directory changes nothing beside it. -/
theorem Committed.prefix_of_changed (hv : v.IsTree) (hw : w.IsTree)
    {done : List (Path × ByteArray)} (h : Committed v w (waysBelow root files) done)
    (hnormal : ∀ file ∈ files, file.1.IsNormal)
    (hdone : ∀ file ∈ done, file.1 ∈ waysBelow root files)
    (hroot : v.Leads root.start root.route base) (hbase : v base = some .directory)
    (hplace : w place ≠ v place) : base <+: place := by
  rcases h.changes place hplace with ⟨hnone, -, hway⟩ | ⟨-, put, hmem, hhas⟩
  · obtain ⟨file, hfile, pieces, ⟨rest, hrest⟩, hleads⟩ :=
      hway.below hv hw h.keeps hnormal hroot hbase hnone
    have hup : ['.', '.'] ∉ pieces := fun hmem =>
      (hnormal file hfile).up_not_mem (hrest ▸ List.mem_append_left _ hmem)
    exact hleads.eq_append hup ▸ List.prefix_append _ _
  · obtain ⟨file, hfile, hjoin⟩ := List.mem_map.1 (hdone put hmem)
    have hleads := hhas.leads
    rw [← hjoin] at hleads
    rw [((hroot.keep h.keeps).join_of_leads hw (hnormal file hfile) hleads).2]
    exact List.prefix_append _ _

/-! Beside what is staged. -/

theorem isTree_without (hv : v.IsTree) (hplace : ¬ place <+: [workingName]) :
    (v.without place).IsTree := by
  have hnil : ¬ place <+: [] := fun h => hplace (h.trans List.nil_prefix)
  refine ⟨?_, ?_, fun other name hother => ?_⟩
  · rw [without, if_neg hnil, hv.outermost]
  · rw [without, if_neg hplace, hv.working]
  · rw [without] at hother ⊢
    split at hother
    case isTrue => exact absurd rfl hother
    case isFalse hnot =>
      rw [if_neg fun hunder => hnot (hunder.trans (List.prefix_append _ _))]
      exact hv.above other name hother

theorem without_inside {other : Location} (h : place <+: other) : v.without place other = none :=
  if_pos h

theorem without_beside {other : Location} (h : ¬ place <+: other) :
    v.without place other = v other :=
  if_neg h

theorem without_update_inside {other : Location} (h : place <+: other) (s : Option Sight) :
    without (Function.update v other s) place = v.without place := by
  funext seen
  by_cases hseen : place <+: seen
  · rw [without_inside hseen, without_inside hseen]
  · rw [without_beside hseen, without_beside hseen]
    refine Function.update_of_ne ?_ _ _
    rintro rfl
    exact hseen h

theorem without_update_beside {other : Location} (h : ¬ place <+: other)
    (s : Option Sight) :
    without (Function.update v other s) place = Function.update (v.without place) other s := by
  funext seen
  by_cases hseen : seen = other
  · subst hseen
    rw [without_beside h, Function.update_self, Function.update_self]
  · simp only [Function.update_of_ne hseen, without]

theorem without_without {other : Location} (h : place <+: other) :
    (v.without other).without place = v.without place := by
  funext seen
  by_cases hseen : place <+: seen
  · rw [without_inside hseen, without_inside hseen]
  · rw [without_beside hseen, without_beside hseen,
      without_beside fun hother => hseen (h.trans hother)]

theorem keeps_of_without (h : v.Keeps (w.without place)) : v.Keeps w := by
  intro other hother
  have hnow := h other hother
  by_cases hunder : place <+: other
  · rw [without_inside hunder] at hnow
    cases hnow
  · rwa [without_beside hunder] at hnow

/-- Without a file all directories are there. -/
theorem keeps_without {content : ByteArray} (hv : v.IsTree) (h : v place = some (.file content)) :
    v.Keeps (v.without place) := by
  intro other hother
  rw [without, if_neg, hother]
  rintro ⟨rest, rfl⟩
  by_cases hnil : rest = []
  · rw [hnil, List.append_nil, h] at hother
    cases hother
  · rw [hv.above_append hnil (by simp [hother])] at h
    cases h

/-- A staging file or directory can be made where a path leads. -/
structure Site (v : Sights) (staging : Path) (above : Location) (name : String) : Prop where
  isTree : v.IsTree
  vacant : v.resolve staging = .vacant (above ++ [name])

namespace Site

variable {staging : Path} {above : Location} {name : String}

theorem isOpen (h : v.Site staging above name) : staging.IsOpen :=
  ((resolve_eq_vacant_iff h.isTree).1 h.vacant).1

theorem leads (h : v.Site staging above name) :
    v.Leads staging.start staging.route (above ++ [name]) :=
  ((resolve_eq_vacant_iff h.isTree).1 h.vacant).2.1

theorem eq_none (h : v.Site staging above name) : v (above ++ [name]) = none :=
  ((resolve_eq_vacant_iff h.isTree).1 h.vacant).2.2

/-- Nothing that is there is at or below its place. -/
theorem beside (h : v.Site staging above name) (hplace : v place ≠ none) :
    ¬ above ++ [name] <+: place := by
  have hnone := h.eq_none
  rintro ⟨rest, rfl⟩
  by_cases hnil : rest = []
  · rw [hnil, List.append_nil] at hplace
    exact hplace hnone
  · rw [h.isTree.above_append hnil hplace] at hnone
    cases hnone

theorem beside_start (h : v.Site staging above name) (p : Path) :
    ¬ above ++ [name] <+: p.start :=
  h.beside (by simp [h.isTree.start p])

theorem beside_working (h : v.Site staging above name) :
    ¬ above ++ [name] <+: [workingName] :=
  h.beside (by simp [h.isTree.working])

theorem without_eq (h : v.Site staging above name) : v.without (above ++ [name]) = v :=
  h.isTree.without_eq_self h.eq_none

/-- Beside what is staged paths lead as if it were not there. -/
theorem leads_without (h : v.Site staging above name) (hp : p.Avoids name)
    {pieces : List (List Char)} (hpieces : pieces <+: p.route)
    (hleads : w.Leads p.start pieces place) :
    (w.without (above ++ [name])).Leads p.start pieces place ∧ ¬ above ++ [name] <+: place :=
  hleads.beside (fun _ hother => without_beside hother)
    (fun piece hpiece => hp piece (hpieces.subset hpiece)) (h.beside_start p)

/-- A name in the staging directory leads below it. -/
theorem leads_join {inner : String} (h : v.Site staging above name) (hw : w.IsTree)
    (hkeep : v.Keeps w) (hinner : Path.IsPlain inner)
    (hleads : w.Leads (staging.join ⟨inner⟩).start (staging.join ⟨inner⟩).route place) :
    place = above ++ [name] ++ [inner] := by
  have heq := ((h.leads.keep hkeep).join_of_leads hw hinner.isNormal hleads).2
  rwa [hinner.namesOf_route] at heq

theorem canHold_without (h : v.Site staging above name) (hp : p.Avoids name)
    (hcan : w.CanHold p place) :
    (w.without (above ++ [name])).CanHold p place ∧ ¬ above ++ [name] <+: place := by
  obtain ⟨hleads, hnot⟩ := h.leads_without hp List.prefix_rfl hcan.leads
  exact ⟨⟨hcan.isOpen, hleads, by rw [without_beside hnot]; exact hcan.not_directory,
    hcan.noSlash⟩, hnot⟩

theorem isPresent_without (h : v.Site staging above name) (hw : w.IsTree) (hp : p.Avoids name)
    (hpresent : w.IsPresent p) : (w.without (above ++ [name])).IsPresent p := by
  refine hpresent.of_leads hw (isTree_without hw h.beside_working) fun led hled _ => ?_
  obtain ⟨hleads, hnot⟩ := h.leads_without hp List.prefix_rfl hled
  exact ⟨hleads, without_beside hnot⟩

end Site

/-- A staged file moved to where another path leads. -/
theorem Moves.file_of_leads {source : Path} {content : ByteArray} (hv : v.IsTree)
    (hsource : v.Leads source.start source.route place) (hplace : v place = some (.file content))
    (h : v.Moves source target w) :
    ∃ new, v.CanHold target new ∧
      w = Function.update (v.without place) new (some (.file content)) := by
  cases h with
  | file hold hnew =>
    obtain ⟨-, hleads, hfile, -⟩ := (resolve_eq_file_iff hv).1 hold
    obtain rfl := hleads.unique hv hsource (hv.start source)
    obtain rfl := Sight.file.inj (Option.some.inj (hfile.symm.trans hplace))
    exact ⟨_, hnew, rfl⟩
  | directory hold =>
    obtain ⟨-, hleads, hdirectory⟩ := (resolve_eq_directory_iff hv).1 hold
    obtain rfl := hleads.unique hv hsource (hv.start source)
    rw [hdirectory] at hplace
    cases hplace

/-- A directory moved to where another path leads. -/
theorem Moves.directory_of_leads {source : Path} (hv : v.IsTree)
    (hsource : v.Leads source.start source.route place) (hplace : v place = some .directory)
    (h : v.Moves source target w) :
    ∃ new, v.CanTake target new ∧ ¬ place <+: new ∧ w = v.moved place new := by
  cases h with
  | file hold =>
    obtain ⟨-, hleads, hfile, -⟩ := (resolve_eq_file_iff hv).1 hold
    obtain rfl := hleads.unique hv hsource (hv.start source)
    rw [hfile] at hplace
    cases hplace
  | directory hold hnew hbeside =>
    obtain ⟨-, hleads, -⟩ := (resolve_eq_directory_iff hv).1 hold
    obtain rfl := hleads.unique hv hsource (hv.start source)
    exact ⟨_, hnew, hbeside, rfl⟩

/-! A directory of files moved as a whole. -/

/-- Below a place that shows the same as another one, names lead the same. -/
theorem Leads.same_below {new : Location} (hsame : ∀ below, w (new ++ below) = v (base ++ below))
    {pieces : List (List Char)} (hnames : ['.', '.'] ∉ pieces) {below : Location}
    (h : v.Leads (base ++ below) pieces place) :
    w.Leads (new ++ below) pieces (new ++ (below ++ namesOf pieces)) := by
  generalize hfrom : base ++ below = from_ at h
  induction h generalizing below with
  | here from_ => simpa [namesOf] using Leads.here _
  | stay _ ih =>
    have hrest := ih (fun hmem => hnames (List.mem_cons_of_mem _ hmem)) hfrom
    exact .stay (by simpa [namesOf] using hrest)
  | up => exact absurd List.mem_cons_self hnames
  | @down _ _ piece rest hname hsight _ ih =>
    subst hfrom
    have hrest := ih (fun hmem => hnames (List.mem_cons_of_mem _ hmem)) (List.append_assoc ..).symm
    rw [List.append_assoc, ← hsame, ← List.append_assoc] at hsight
    refine .down hname hsight ?_
    simpa [namesOf, hname.ne_dot] using hrest
  | @last _ piece hname hsight =>
    subst hfrom
    rw [List.append_assoc, ← hsame, ← List.append_assoc] at hsight
    have hlast := Leads.last hname hsight
    simpa [namesOf, hname.ne_dot] using hlast

/-- A directory with some files below it, and no more but directories on the ways to them. -/
structure HoldsOnly (v : Sights) (root : Path) (base : Location)
    (files : List (Path × ByteArray)) : Prop where
  leads : v.Leads root.start root.route base
  isDirectory : v base = some .directory
  holds : ∀ file ∈ files, ∃ place, v.HasFile (root.join file.1, file.2) place
  only : ∀ below, below ≠ [] → v (base ++ below) ≠ none →
    (v (base ++ below) = some .directory ∧
      ∃ file ∈ files, ∃ pieces, pieces <+: file.1.route ∧ v.Leads base pieces (base ++ below)) ∨
    ∃ file ∈ files, v.HasFile (root.join file.1, file.2) (base ++ below)

namespace HoldsOnly

theorem hasFile (hv : v.IsTree) (h : v.HoldsOnly root base files)
    (hnormal : ∀ file ∈ files, file.1.IsNormal) {file : Path × ByteArray} (hfile : file ∈ files) :
    v.HasFile (root.join file.1, file.2) (base ++ namesOf file.1.route) := by
  obtain ⟨place, hhas⟩ := h.holds file hfile
  have heq := (h.leads.join_of_leads hv (hnormal file hfile) hhas.leads).2
  exact heq ▸ hhas

/-- A file is not the directory itself. -/
theorem route_ne_nil (hv : v.IsTree) (h : v.HoldsOnly root base files)
    (hnormal : ∀ file ∈ files, file.1.IsNormal) {file : Path × ByteArray} (hfile : file ∈ files) :
    file.1.route ≠ [] := by
  intro hnil
  have hholds := (h.hasFile hv hnormal hfile).holds
  rw [hnil, namesOf, List.filter_nil, List.map_nil, List.append_nil, h.isDirectory] at hholds
  cases hholds

end HoldsOnly

/-- What is written below a directory without anything is all that is below it. -/
theorem Committed.holdsOnly (hv : v.IsTree) (hw : w.IsTree)
    (h : Committed v w (waysBelow root files) (filesBelow root files))
    (hnormal : ∀ file ∈ files, file.1.IsNormal) (hroot : v.Leads root.start root.route base)
    (hbase : v base = some .directory) (hhollow : ∀ below, below ≠ [] → v (base ++ below) = none) :
    w.HoldsOnly root base files := by
  have hkeep := h.keeps
  refine ⟨hroot.keep hkeep, hkeep base hbase, fun file hfile => ?_, fun below hbelow hthere => ?_⟩
  · exact h.holds (root.join file.1, file.2) (List.mem_map_of_mem hfile)
  · have hnone := hhollow below hbelow
    rcases h.changes (base ++ below) (by rwa [hnone]) with
      ⟨-, hdirectory, hway⟩ | ⟨-, put, hmem, hhas⟩
    · exact .inl ⟨hdirectory, hway.below hv hw hkeep hnormal hroot hbase hnone⟩
    · obtain ⟨file, hfile, rfl⟩ := List.mem_map.1 hmem
      exact .inr ⟨file, hfile, hhas⟩

/-- A staged directory can be moved to where a path leads beside the staging directory. -/
structure MovesOut (v : Sights) (aside base : Location) (destination : Path) (new : Location) :
    Prop where
  inside : aside <+: base
  aside_isDirectory : v aside = some .directory
  base_isDirectory : v base = some .directory
  takes : v.CanTake destination new
  beside : ¬ aside <+: new
  leads : (v.without aside).Leads destination.start destination.route new

namespace MovesOut

variable {aside new : Location} {destination : Path}

/-- The staging directory is not below where the path leads either. -/
theorem beside_append (h : v.MovesOut aside base destination new) (below : Location) :
    ¬ aside <+: new ++ below := by
  intro hunder
  rcases List.prefix_or_prefix_of_prefix hunder (List.prefix_append _ _) with hnew | ⟨more, hmore⟩
  · exact h.beside hnew
  · by_cases hnil : more = []
    · rw [hnil, List.append_nil] at hmore
      exact h.beside (hmore ▸ List.prefix_rfl)
    · have hnone := h.takes.hollow more hnil
      rw [hmore, h.aside_isDirectory] at hnone
      cases hnone

theorem moved_append (h : v.MovesOut aside base destination new) (below : Location) :
    (v.moved base new).without aside (new ++ below) = v (base ++ below) := by
  rw [without_beside (h.beside_append below), moved, if_pos (List.prefix_append _ _),
    List.drop_left]

theorem moved_self (h : v.MovesOut aside base destination new) :
    (v.moved base new).without aside new = some .directory := by
  have hnew := h.moved_append []
  rwa [List.append_nil, List.append_nil, h.base_isDirectory] at hnew

theorem moved_beside (h : v.MovesOut aside base destination new) {place : Location}
    (hplace : ¬ new <+: place) :
    (v.moved base new).without aside place = v.without aside place := by
  rw [← without_without (v := v) h.inside]
  by_cases hunder : aside <+: place
  · rw [without_inside hunder, without_inside hunder]
  · rw [without_beside hunder, without_beside hunder, moved, if_neg hplace]

theorem keeps (h : v.MovesOut aside base destination new) :
    (v.without aside).Keeps ((v.moved base new).without aside) := by
  intro place hplace
  by_cases hunder : new <+: place
  · obtain ⟨below, rfl⟩ := hunder
    rw [without_beside (h.beside_append below)] at hplace
    have hnil : below = [] := by
      by_contra hne
      rw [h.takes.hollow below hne] at hplace
      cases hplace
    rw [hnil, List.append_nil, h.moved_self]
  · rw [h.moved_beside hunder, hplace]

/-- What names lead to below the staged directory they lead to from where it is moved. -/
theorem leads_moved (h : v.MovesOut aside base destination new) {pieces : List (List Char)}
    (hnames : ['.', '.'] ∉ pieces) {below : Location}
    (hbelow : v.Leads base pieces (base ++ below)) :
    ((v.moved base new).without aside).Leads destination.start (destination.route ++ pieces)
      (new ++ below) := by
  have heq := List.append_cancel_left (hbelow.eq_append hnames)
  have hstart : v.Leads (base ++ []) pieces (base ++ below) := by simpa using hbelow
  have hmoved := Leads.same_below h.moved_append hnames hstart
  rw [List.append_nil, List.nil_append, ← heq] at hmoved
  exact (h.leads.keep h.keeps).append h.moved_self hmoved

theorem hasFile_moved (hv : v.IsTree) (h : v.MovesOut aside base destination new)
    (hroot : v.Leads root.start root.route base) {file : Path × ByteArray}
    (hnormal : file.1.IsNormal) (hfile : v.HasFile (root.join file.1, file.2) place) :
    ∃ below, place = base ++ below ∧
      HasFile ((v.moved base new).without aside) (destination.join file.1, file.2)
        (new ++ below) := by
  obtain ⟨hinner, heq⟩ := hroot.join_of_leads hv hnormal hfile.leads
  refine ⟨_, heq, ?_, ?_⟩
  · rw [Path.start_join hnormal.isAbsolute, Path.route_join hnormal.isAbsolute]
    exact h.leads_moved hnormal.up_not_mem (heq ▸ hinner)
  · rw [h.moved_append, ← heq, hfile.holds]

/-- The files below a staged directory are done once it is moved. -/
theorem committed (hv : v.IsTree) (h : v.MovesOut aside base destination new)
    (hholds : v.HoldsOnly root base files) (hnormal : ∀ file ∈ files, file.1.IsNormal) :
    Committed (v.without aside) ((v.moved base new).without aside)
      (destination :: waysBelow destination files) (filesBelow destination files) := by
  refine ⟨fun put hput => ?_, fun place hplace => ?_⟩
  · obtain ⟨file, hmem, rfl⟩ := List.mem_map.1 hput
    obtain ⟨place, hfile⟩ := hholds.holds file hmem
    obtain ⟨below, -, hmoved⟩ := h.hasFile_moved hv hholds.leads (hnormal file hmem) hfile
    exact ⟨_, hmoved⟩
  · obtain ⟨below, rfl⟩ : new <+: place := by
      by_contra hunder
      exact hplace (h.moved_beside hunder)
    rw [h.moved_append, without_beside (h.beside_append below)] at hplace ⊢
    by_cases hnil : below = []
    · subst hnil
      rw [List.append_nil, List.append_nil, h.base_isDirectory] at hplace ⊢
      have hnone : v new = none := h.takes.not_file.resolve_right (Ne.symm hplace)
      exact .inl ⟨hnone, rfl, destination, List.mem_cons_self, destination.route, List.prefix_rfl,
        h.leads.keep h.keeps⟩
    · rw [h.takes.hollow below hnil] at hplace ⊢
      rcases hholds.only below hnil hplace with
        ⟨hthere, file, hmem, pieces, hpieces, hbelow⟩ | ⟨file, hmem, hfile⟩
      · have hnormalFile := hnormal file hmem
        have hup : ['.', '.'] ∉ pieces := fun hmem => hnormalFile.up_not_mem (hpieces.subset hmem)
        refine .inl ⟨rfl, hthere, destination.join file.1, List.mem_cons_of_mem _
          (join_mem_waysBelow hmem), destination.route ++ pieces, ?_, ?_⟩
        · rw [Path.route_join hnormalFile.isAbsolute]
          exact (List.prefix_append_right_inj _).2 hpieces
        · rw [Path.start_join hnormalFile.isAbsolute]
          exact h.leads_moved hup hbelow
      · obtain ⟨found, heq, hmoved⟩ := h.hasFile_moved hv hholds.leads (hnormal file hmem) hfile
        obtain rfl := List.append_cancel_left heq
        exact .inr ⟨nofun, _, List.mem_map_of_mem hmem, hmoved⟩

end MovesOut

end Sights

end RegisterMap
