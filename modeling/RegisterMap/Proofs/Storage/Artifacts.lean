import RegisterMap.Proofs.Storage.Loops

/-!
Files and trees written through what is staged beside them. Up to the first move nothing is
changed beside it but for directories on the way of the destination; a file and a tree that is
moved as a whole are then done at once, and a tree that is moved file by file is done up to
some file.
-/

namespace RegisterMap

open Sights (Committed)

variable {α : Type} {v₀ v : Sights} {destination : Path}

/-- Whatever is staged at a place, something holds of all else. -/
structure Sights.Aside (v : Sights) (aside : Location) (P : Sights → Prop) (w : Sights) :
    Prop where
  keeps : v.Keeps w
  rest : P (w.without aside)

namespace Sights

variable {s w : Sights} {staging root : Path} {above place base : Location} {name : String}

theorem Aside.mono {P Q : Sights → Prop} {aside : Location} (hPQ : ∀ w, P w → Q w)
    (h : v.Aside aside P w) : v.Aside aside Q w :=
  ⟨h.keeps, hPQ _ h.rest⟩

/-- Something is staged. -/
theorem Site.aside (h : v.Site staging above name) (x : Sight) :
    v.Aside (above ++ [name]) (· = v) (Function.update v (above ++ [name]) (some x)) :=
  ⟨keeps_update (.inl (by simp [h.eq_none])), by
    rw [without_update_inside List.prefix_rfl, h.without_eq]⟩

/-- Something is made at or below the staging place. -/
theorem Aside.update {aside : Location} (h : v.Aside aside (· = v) s) (hplace : aside <+: place)
    {x : Sight} (hx : s place ≠ some .directory ∨ x = .directory) :
    v.Aside aside (· = v) (Function.update s place (some x)) :=
  ⟨h.keeps.trans (keeps_update hx), (without_update_inside hplace _).trans h.rest⟩

/-- Files are written below a directory in the staging directory. -/
theorem Aside.of_committed {aside : Location} {files done : List (Path × ByteArray)}
    (h : v.Aside aside (· = v) s) (hs : s.IsTree) (hw : w.IsTree)
    (hcommitted : Committed s w (waysBelow root files) done)
    (hnormal : ∀ file ∈ files, file.1.IsNormal)
    (hdone : ∀ file ∈ done, file.1 ∈ waysBelow root files)
    (hroot : s.Leads root.start root.route base) (hbase : s base = some .directory)
    (hinside : aside <+: base) : v.Aside aside (· = v) w := by
  refine ⟨h.keeps.trans hcommitted.keeps, ?_⟩
  have hrest := h.rest
  subst hrest
  funext place
  by_cases hplace : aside <+: place
  · rw [without_inside hplace, without_inside hplace]
  · rw [without_beside hplace, without_beside hplace]
    by_contra hchanged
    exact hplace (hinside.trans
      (hcommitted.prefix_of_changed hs hw hnormal hdone hroot hbase hchanged))

end Sights

/-- Before anything is staged, directories are made on the way of the destination. They
do not make the destination appear, unless its way leads up again. -/
structure Prepared (v₀ : Sights) (destination : Path) (ways : List Path) (v : Sights) : Prop where
  committed : Committed v₀ v ways []
  unchanged : v₀.IsDirectory destination.directory → v = v₀
  absent : ['.', '.'] ∉ destination.route → v.IsPresent destination → v₀.IsPresent destination

/-- The working directory is always there. -/
theorem ne_none_of_dot {pieces : List (List Char)} {place : Location} (hv : v.IsTree)
    (hpieces : pieces <+: Path.route ⟨"."⟩) (hleads : v.Leads (Path.start ⟨"."⟩) pieces place) :
    v place ≠ none := by
  have hroute : Path.route ⟨"."⟩ = [['.']] := by decide
  have hnames : namesOf pieces = [] := by
    rw [namesOf, List.map_eq_nil_iff, List.filter_eq_nil_iff]
    intro piece hpiece
    have hdot := hpieces.subset hpiece
    rw [hroute, List.mem_singleton] at hdot
    simp [hdot]
  have hup : ['.', '.'] ∉ pieces := fun hmem => by
    have hdots := hpieces.subset hmem
    rw [hroute] at hdots
    exact absurd hdots (by decide)
  rw [hleads.eq_append hup, hnames, List.append_nil, hv.start]
  simp

theorem staysOnWay_prepared {ways : List Path} (hway : destination ∈ ways) :
    StaysOnWay destination.directory (Prepared v₀ destination ways) := by
  intro v pieces place hv hw h hpieces hleads hvacant
  rcases destination.directory_cases with hdot | ⟨hparent, -⟩
  · rw [hdot] at hpieces hleads
    exact absurd hvacant (ne_none_of_dot hv hpieces hleads)
  obtain ⟨hstart, rest, hroute, hrest⟩ := Path.exists_route_of_parent? hparent
  have hon : v.OnWay ways place :=
    ⟨destination, hway, pieces, hpieces.trans ⟨rest, hroute.symm⟩, hstart ▸ hleads⟩
  refine ⟨h.committed.grow hvacant hon, fun hdirectory => ?_, fun hnames hpresent => ?_⟩
  · obtain rfl := h.unchanged hdirectory
    obtain ⟨led, hled⟩ := hdirectory
    obtain ⟨-, hway, hsight⟩ := (Sights.resolve_eq_directory_iff hv).1 hled
    obtain ⟨more, hmore⟩ := hpieces
    rw [← hmore] at hway
    obtain ⟨between, hbetween, hthere⟩ := hway.beginning hv (hv.start _) (by simp [hsight])
    obtain rfl := hbetween.unique hv hleads (hv.start _)
    exact absurd hvacant hthere
  · refine h.absent hnames (hpresent.of_leads hw hv fun led hled hthere => ?_)
    have hne : led ≠ place := by
      rintro rfl
      obtain ⟨more, hmore⟩ := hpieces
      have hup : ['.', '.'] ∉ pieces := fun hmem => hnames <| by
        rw [hroute, ← hmore]
        exact List.mem_append_left _ (List.mem_append_left _ hmem)
      have hshort := hleads.eq_append hup
      have hlong := hled.eq_append hnames
      rw [hroute, ← hmore, namesOf_append, namesOf_append, List.append_assoc, ← hstart,
        ← List.append_assoc, ← hshort, List.self_eq_append_right, List.append_eq_nil_iff] at hlong
      have hnil : pieces = [] := by
        rcases hrest with hnil | hne
        · exact (List.append_eq_nil_iff.1 (hmore.trans hnil)).1
        · exact absurd hlong.2 hne
      rw [hshort, hnil, namesOf, List.filter_nil, List.map_nil, List.append_nil,
        hv.start] at hvacant
      cases hvacant
    have hsame : v led = Function.update v place (some .directory) led :=
      (Function.update_of_ne hne _ _).symm
    exact ⟨hled.down_to hv hnames (hsame ▸ hthere) hsame, hsame⟩

theorem Prepared.refl (v₀ : Sights) (ways : List Path) : Prepared v₀ destination ways v₀ :=
  ⟨.refl v₀ ways, fun _ => rfl, fun _ h => h⟩

/-! Trees on their way. -/

section Trees

variable {files : List (Path × ByteArray)}

/-- A staged directory that files are to be written below. -/
structure EmptyRoot (v : Sights) (aside base : Location) (root : Path) (s : Sights) : Prop where
  isAside : v.Aside aside (· = v) s
  inside : aside <+: base
  base_ne : base ≠ aside
  leads : s.Leads root.start root.route base
  isDirectory : s base = some .directory
  hollow : ∀ below, below ≠ [] → s (base ++ below) = none

/-- A staged directory that files are written below. -/
structure StagedTree (v : Sights) (aside base : Location) (root : Path)
    (files : List (Path × ByteArray)) (s : Sights) : Prop where
  isAside : v.Aside aside (· = v) s
  inside : aside <+: base
  base_ne : base ≠ aside
  holdsOnly : s.HoldsOnly root base files

/-- The root of a staged tree is below the staging directory. -/
theorem StagedTree.aside_isDirectory {aside base : Location} {root : Path} {s : Sights}
    (hs : s.IsTree) (h : StagedTree v aside base root files s) : s aside = some .directory := by
  obtain ⟨more, rfl⟩ := h.inside
  have hmore : more ≠ [] := fun hnil => h.base_ne (by rw [hnil, List.append_nil])
  exact hs.above_append hmore (by simp [h.holdsOnly.isDirectory])

/-- The first files of a tree are done, below a directory where there are any. -/
structure TreeDone (v : Sights) (destination : Path) (files : List (Path × ByteArray)) (k : Nat)
    (w : Sights) : Prop where
  committed : Committed v w (destination :: waysBelow destination files)
    (filesBelow destination (files.take k))
  isDirectory : files.take k ≠ [] → w.IsDirectory destination

/-- All files of a tree are done. -/
structure TreeWritten (v : Sights) (destination : Path) (files : List (Path × ByteArray))
    (w : Sights) : Prop where
  done : TreeDone v destination files files.length w
  reaches : w.Reaches destination

theorem TreeDone.since {ways : List Path} {k : Nat} {w : Sights}
    (hways : ∀ way ∈ ways, way ∈ destination :: waysBelow destination files)
    (hbefore : Committed v₀ v ways []) (h : TreeDone v destination files k w) :
    TreeDone v₀ destination files k w :=
  ⟨(hbefore.mono_ways hways).trans h.committed fun _ hmem => absurd hmem List.not_mem_nil,
    h.isDirectory⟩

/-- A tree is done up to one of its files; up to the first, where nothing was at the destination
and its way does not lead up again through directories that were not there. -/
def TreeBroken (v : Sights) (destination : Path) (files : List (Path × ByteArray)) (w : Sights) :
    Prop :=
  ∃ k, TreeDone v destination files k w ∧ (files ≠ [] → k < files.length) ∧
    (v.IsDirectory destination.directory ∨ ['.', '.'] ∉ destination.route →
      ¬ v.IsPresent destination → k = 0)

theorem Prepared.treeBroken {ways : List Path}
    (hways : ∀ way ∈ ways, way ∈ destination :: waysBelow destination files)
    (h : Prepared v₀ destination ways v) : TreeBroken v₀ destination files v :=
  ⟨0, ⟨h.committed.mono_ways hways, fun hne => absurd List.take_zero hne⟩, List.length_pos_iff.2,
    fun _ _ => rfl⟩

theorem Prepared.isPresent {ways : List Path} (h : Prepared v₀ destination ways v)
    (hpresent : v.IsPresent destination)
    (hsettled : v₀.IsDirectory destination.directory ∨ ['.', '.'] ∉ destination.route) :
    v₀.IsPresent destination := by
  rcases hsettled with hdirectory | hnames
  · exact h.unchanged hdirectory ▸ hpresent
  · exact h.absent hnames hpresent

end Trees

namespace Disk

/-- Steps with what is staged, which is cleared away however they end. -/
theorem ends_staged {stage : Path → StateM Disk (Option Path)} {paths : List Path} {x : Sight}
    (hstage : ∀ dir, Stages (stage dir) dir paths x)
    {steps : Path → ExceptT ExportError (StateM Disk) α}
    {J : Sights → Prop} {after : α → Sights → Prop} {failed : Sights → Prop}
    (hJ : StaysOnWay destination.directory J) (hfailed : ∀ v, J v → failed v)
    (hsteps : ∀ v staging above name, J v → v.Site staging above name →
      (∀ path ∈ paths, path.Avoids name) →
      EndsOr (· = Function.update v (above ++ [name]) (some x)) (steps staging)
        (fun a => v.Aside (above ++ [name]) (after a)) (v.Aside (above ++ [name]) failed)) :
    EndsOr J (fileSystem.staged stage destination steps) after failed := by
  refine Ends.bind (ends_requireDirectory hJ destination.directory_text_isEmpty) fun result => ?_
  cases result with
  | error e => exact .pure fun v _ h => hfailed v h
  | ok _ =>
    refine .of_forall fun v hv ⟨hbefore, _⟩ => (hstage _ v).bind fun staging => ?_
    cases staging with
    | none => exact .pure fun w _ h => hfailed w (h ▸ hbefore)
    | some staging =>
      refine Ends.of_forall fun s _ ⟨n, place, hstaging, hunused, hvacant, hs⟩ => ?_
      subst hs
      have hplain := isPlain_stagingName n
      obtain ⟨above, rfl⟩ : ∃ above, place = above ++ [stagingName n] := by
        have hleads := ((Sights.resolve_eq_vacant_iff hv).1 hvacant).2.1
        rw [hstaging] at hleads
        obtain ⟨above, -, -, heq, -⟩ := hleads.join hv hplain.isNormal
        rw [hplain.namesOf_route] at heq
        exact ⟨above, heq⟩
      have hsite : v.Site staging above (stagingName n) := ⟨hv, hvacant⟩
      have havoids : ∀ path ∈ paths, path.Avoids (stagingName n) :=
        fun path hpath => Path.avoids_of_not_mem hplain fun hmem =>
          hunused (List.mem_flatMap.2 ⟨path, hpath, hmem⟩)
      refine Ends.bind (hsteps v staging above _ hbefore hsite havoids) fun result => ?_
      refine Ends.of_forall fun w hw hafter => ?_
      have hkeep : v.Keeps w := by cases result <;> exact hafter.keeps
      have hslash : staging.endsInSlash = false := hstaging ▸ hplain.endsInSlash_join _
      refine (ends_discard hsite.isOpen hslash (hsite.leads.keep hkeep)
        hsite.beside_working).bind fun _ => .pure fun u _ hu => ?_
      subst hu
      cases result <;> exact hafter.rest

/-- A staged file is written. -/
theorem ends_writeStaged {file : Path} {above : Location} {name : String} {content : ByteArray}
    (hsite : v.Site file above name) :
    EndsOr (· = Function.update v (above ++ [name]) (some (.file .empty)))
      (FileSystem.require file (fileSystem.write file content))
      (fun _ w => v.Aside (above ++ [name]) (· = v) w ∧ w.HasFile (file, content) (above ++ [name]))
      (v.Aside (above ++ [name]) (· = v)) := by
  refine .require (.of_forall fun s hs hbefore => ?_)
  have haside : v.Aside (above ++ [name]) (· = v) s := hbefore ▸ hsite.aside _
  refine ends_write.mono fun ok w _ h => ?_
  rcases h with ⟨rfl, rfl⟩ | ⟨place, part, hcan, rfl, hpart⟩
  · exact haside
  · obtain rfl := hcan.leads.unique hs (hsite.leads.keep haside.keeps) (hs.start file)
    have hkeep := Sights.keeps_update (s := .file part) (.inl hcan.not_directory)
    have hwrote := haside.update List.prefix_rfl (.inl hcan.not_directory) (x := .file part)
    cases ok with
    | false => exact hwrote
    | true =>
      obtain rfl := hpart rfl
      exact ⟨hwrote, hcan.leads.keep hkeep, Function.update_self ..⟩

theorem ends_writeFile {content : ByteArray} :
    EndsOr (· = v₀) (fileSystem.writeFile destination content)
      (fun _ w => Committed v₀ w [destination] [(destination, content)] ∧ destination.IsOpen ∧
        destination.endsInSlash = false)
      fun w => Committed v₀ w [destination] [] := by
  have hstage (dir : Path) :
      Stages (fileSystem.stageFile dir [destination]) dir [destination] (.file .empty) :=
    stages_stage (Entry.showsOnly_file .empty) dir [destination]
  refine .strengthen (ends_staged hstage (staysOnWay_prepared List.mem_cons_self)
    (fun _ h => h.committed) ?_) fun v _ h => h ▸ Prepared.refl v₀ [destination]
  intro v file above name hprepared hsite havoids
  have hfailed {w : Sights} (h : v.Aside (above ++ [name]) (· = v) w) :
      v.Aside (above ++ [name]) (fun w => Committed v₀ w [destination] []) w :=
    h.mono fun w (hw : w = v) => hw ▸ hprepared.committed
  refine .bind ((ends_writeStaged hsite).mono_failed fun _ _ h => hfailed h) fun _ =>
    .require (.of_forall fun s hs ⟨haside, hfile⟩ => ?_)
  refine (ends_move_staged hsite (havoids destination List.mem_cons_self) hfile
    List.prefix_rfl).mono fun ok w _ h => ?_
  cases ok with
  | false => exact h ▸ hfailed haside
  | true =>
    obtain ⟨new, hcan, -, hmoved, -, hbeside⟩ := h
    rw [haside.rest] at hcan hbeside
    refine ⟨haside.keeps.trans hmoved, ?_, hcan.isOpen, hcan.noSlash⟩
    rw [hbeside]
    exact hprepared.committed.put content hcan fun _ hfile => absurd hfile List.not_mem_nil

/-! Trees. -/

section Tree

variable {s : Sights} {staging root : Path} {above base : Location} {name : String}
  {files : List (Path × ByteArray)}

theorem ends_makeRoot (hsite : v.Site staging above name) :
    EndsOr (· = Function.update v (above ++ [name]) (some .directory))
      (FileSystem.require (staging.join ⟨"tree"⟩) do
        return (← fileSystem.makeDirectory (staging.join ⟨"tree"⟩)) == .made)
      (fun _ => EmptyRoot v (above ++ [name]) (above ++ [name] ++ ["tree"]) (staging.join ⟨"tree"⟩))
      (v.Aside (above ++ [name]) (· = v)) := by
  have hplain : Path.IsPlain "tree" := ⟨by decide, by decide, by decide, by decide⟩
  refine .require (.of_forall fun s hs hbefore => ends_makeDirectory.bind fun answer => ?_)
  have haside : v.Aside (above ++ [name]) (· = v) s := hbefore ▸ hsite.aside _
  cases answer with
  | orphaned => exact .pure fun w _ h => h ▸ haside
  | refused => exact .pure fun w _ h => h ▸ haside
  | made =>
    refine .pure fun w hw h => ?_
    obtain ⟨place, hresolve, rfl⟩ := h
    obtain ⟨-, hleads, hvacant⟩ := (Sights.resolve_eq_vacant_iff hs).1 hresolve
    obtain rfl := hsite.leads_join hs haside.keeps hplain hleads
    have hinside := List.prefix_append (above ++ [name]) ["tree"]
    refine ⟨haside.update hinside (.inr rfl), hinside, by simp,
      hleads.keep (Sights.keeps_update (.inr rfl)), Function.update_self .., fun below hbelow => ?_⟩
    rw [Function.update_of_ne (by simpa using hbelow)]
    by_contra hthere
    have hdirectory := hs.above_append hbelow hthere
    rw [hvacant] at hdirectory
    cases hdirectory

theorem ends_writeRoot {aside : Location} (hnormal : ∀ file ∈ files, file.1.IsNormal)
    (hapart : Apart files) :
    EndsOr (EmptyRoot v aside base root) (fileSystem.writeBelow root files)
      (fun _ => StagedTree v aside base root files) (v.Aside aside (· = v)) := by
  refine .of_forall fun s hs h => ?_
  refine ((ends_writeBelow (List.nil_append files) hnormal hapart (v := s)).mono
    (fun _ w hw hwritten => ?_) fun w hw hbroken => ?_).strengthen fun w _ hw => hw ▸ .refl s _
  · have hpaths : ∀ file ∈ filesBelow root files, file.1 ∈ waysBelow root files :=
      path_mem_waysBelow fun _ hfile => hfile
    exact ⟨h.isAside.of_committed hs hw hwritten hnormal hpaths h.leads h.isDirectory h.inside,
      h.inside, h.base_ne, hwritten.holdsOnly hs hw hnormal h.leads h.isDirectory h.hollow⟩
  · obtain ⟨put, hput, hwritten⟩ := hbroken
    exact h.isAside.of_committed hs hw hwritten hnormal hput h.leads h.isDirectory h.inside

theorem ends_moveFiles (hsite : v.Site staging above name) (hdestination : destination.Avoids name)
    (havoids : ∀ file ∈ files, file.1.Avoids name) (hnormal : ∀ file ∈ files, file.1.IsNormal)
    (hapart : Apart files) (hs : s.IsTree) (h : StagedTree v (above ++ [name]) base root files s)
    (hpresent : v.IsPresent destination) :
    EndsOr (· = s) (fileSystem.moveBelow root destination (files.map (·.1)))
      (fun _ => v.Aside (above ++ [name]) (TreeWritten v destination files))
      (v.Aside (above ++ [name])
        fun w => ∃ k < files.length, TreeDone v destination files k w) := by
  have hrest := h.isAside.rest
  have hroutes : ∀ file ∈ files, file.1.route ≠ [] := fun file hfile =>
    h.holdsOnly.route_ne_nil hs hnormal hfile
  have hwaiting : ∀ file ∈ files, ∃ place, above ++ [name] <+: place ∧
      s.HasFile (root.join file.1, file.2) place := fun file hfile =>
    ⟨_, h.inside.trans (List.prefix_append _ _), h.holdsOnly.hasFile hs hnormal hfile⟩
  have haside {w : Sights} {P : Sights → Prop} (hkeep : s.Keeps w)
      (hP : P (w.without (above ++ [name]))) : v.Aside (above ++ [name]) P w :=
    ⟨h.isAside.keeps.trans hkeep, hP⟩
  have hdone {w : Sights} {k : Nat} {rest : List (Path × ByteArray)} (hw : w.IsTree)
      (hmoving : Moving v (above ++ [name]) root destination
        (destination :: waysBelow destination files) (files.take k) rest w) :
      TreeDone v destination files k (w.without (above ++ [name])) := by
    refine ⟨hmoving.committed, fun hne => ?_⟩
    obtain ⟨place, hleads, hdirectory⟩ := hmoving.isDirectory hne
    obtain ⟨found, hfound, -⟩ := hpresent
    exact Sights.isDirectory_of_leads (Sights.isTree_without hw hsite.beside_working)
      (Sights.isOpen_of_resolve hfound) hleads hdirectory
  have hjoined : ∀ file ∈ files, (destination.join file.1).Avoids name := fun file hfile =>
    Path.avoids_join (hnormal file hfile).isAbsolute hdestination (havoids file hfile)
  have hways : ∀ file ∈ files,
      destination.join file.1 ∈ destination :: waysBelow destination files :=
    fun file hfile => List.mem_cons_of_mem _ (join_mem_waysBelow hfile)
  refine ((ends_moveBelow v hsite (List.nil_append files) hnormal hapart hroutes hjoined hways
    (s := s)).mono ?_ ?_).strengthen ?_
  · rintro _ w hw ⟨hkeep, hmoving⟩
    have htree := hdone (k := files.length) hw (by rwa [List.take_length])
    exact haside hkeep ⟨htree, htree.committed.reaches hpresent.reaches⟩
  · rintro w hw ⟨hkeep, k, hk, hmoving⟩
    exact haside hkeep ⟨k, hk, hdone hw hmoving⟩
  · rintro w - rfl
    exact ⟨.refl w, hwaiting, hrest ▸ .refl _ _, fun hne => absurd rfl hne⟩

theorem ends_moveTree (hsite : v.Site staging above name) (hdestination : destination.Avoids name)
    (hnormal : ∀ file ∈ files, file.1.IsNormal) (hs : s.IsTree)
    (h : StagedTree v (above ++ [name]) base root files s) :
    Ends (· = s) (fileSystem.move root destination) fun ok w =>
      if ok then v.Aside (above ++ [name]) (TreeWritten v destination files) w else w = s := by
  have hsource (old : Location) (hold : s.resolve root = .directory old) :
      ¬ old <+: [workingName] := by
    have hleads := ((Sights.resolve_eq_directory_iff hs).1 hold).2.1
    obtain rfl := hleads.unique hs h.holdsOnly.leads (hs.start root)
    exact fun hworking => hsite.beside_working (h.inside.trans hworking)
  refine (ends_move hsource).mono fun ok w hw hmoved => ?_
  cases ok with
  | false => exact hmoved
  | true =>
    obtain ⟨new, htakes, -, rfl⟩ :=
      Sights.Moves.directory_of_leads hs h.holdsOnly.leads h.holdsOnly.isDirectory hmoved
    obtain ⟨hleads, hnot⟩ := hsite.leads_without hdestination List.prefix_rfl htakes.leads
    have hout : s.MovesOut (above ++ [name]) base destination new :=
      ⟨h.inside, h.aside_isDirectory hs, h.holdsOnly.isDirectory, htakes, hnot, hleads⟩
    have hcommitted := hout.committed hs h.holdsOnly hnormal
    have hdirectory : ((s.moved base new).without (above ++ [name])).IsDirectory destination :=
      Sights.isDirectory_of_leads (Sights.isTree_without hw hsite.beside_working)
        htakes.isOpen (hleads.keep hout.keeps) hout.moved_self
    rw [h.isAside.rest] at hcommitted
    refine ⟨Sights.keeps_of_without hcommitted.keeps, ⟨?_, fun _ => hdirectory⟩,
      (hdirectory.isPresent (Sights.isTree_without hw hsite.beside_working)).reaches⟩
    rw [List.take_length]
    exact hcommitted

theorem ends_writeTree {files : FileSet} (hnormal : ∀ file ∈ files.files, file.1.IsNormal)
    (hapart : Apart files.files) (hpaths : files.paths = files.files.map (·.1)) :
    EndsOr (· = v₀) (fileSystem.writeTree destination files)
      (fun _ => TreeWritten v₀ destination files.files)
      (TreeBroken v₀ destination files.files) := by
  have hways : ∀ way ∈ [destination], way ∈ destination :: waysBelow destination files.files :=
    fun way hway => List.mem_singleton.1 hway ▸ List.mem_cons_self
  have hstage (dir : Path) : Stages (fileSystem.stage dir (destination :: files.paths)) dir
      (destination :: files.paths) .directory :=
    stages_stage Entry.showsOnly_directory dir _
  refine .strengthen (ends_staged hstage (staysOnWay_prepared List.mem_cons_self)
    (fun _ h => h.treeBroken hways) ?_) fun v _ h => h ▸ Prepared.refl v₀ [destination]
  intro v staging above name hprepared hsite havoids
  have hdestination := havoids destination List.mem_cons_self
  have havoidsKeys : ∀ file ∈ files.files, file.1.Avoids name := fun file hfile =>
    havoids file.1 (List.mem_cons_of_mem _ (hpaths ▸ List.mem_map_of_mem hfile))
  have hfailed {w : Sights} (h : v.Aside (above ++ [name]) (· = v) w) :
      v.Aside (above ++ [name]) (TreeBroken v₀ destination files.files) w :=
    h.mono fun u (hu : u = v) => hu ▸ hprepared.treeBroken hways
  have hwritten {w : Sights}
      (h : v.Aside (above ++ [name]) (TreeWritten v destination files.files) w) :
      v.Aside (above ++ [name]) (TreeWritten v₀ destination files.files) w :=
    h.mono fun _ hu => ⟨hu.done.since hways hprepared.committed, hu.reaches⟩
  refine .bind ((ends_makeRoot hsite).mono_failed fun _ _ h => hfailed h) fun _ => ?_
  refine .bind ((ends_writeRoot hnormal hapart).mono_failed fun _ _ h => hfailed h) fun _ => ?_
  refine .of_forall fun s hs hstaged => .bind (.lift ends_isPresent) fun present => ?_
  cases present with
  | true =>
    refine .of_forall fun w hw ⟨hsame, hpresent⟩ => ?_
    subst hsame
    have hv : v.IsPresent destination := by
      have hbeside := hsite.isPresent_without hw hdestination (hpresent rfl)
      rwa [hstaged.isAside.rest] at hbeside
    rw [if_pos rfl, hpaths]
    refine (ends_moveFiles hsite hdestination havoidsKeys hnormal hapart hw hstaged hv).mono
      (fun _ u _ h => hwritten h) fun u _ h => h.mono fun _ ⟨k, hk, hdone⟩ => ?_
    refine ⟨k, hdone.since hways hprepared.committed, fun _ => hk, fun hsettled hnot => ?_⟩
    exact absurd (hprepared.isPresent hv hsettled) hnot
  | false =>
    refine .of_forall fun w hw ⟨hsame, _⟩ => ?_
    subst hsame
    refine .require ((ends_moveTree hsite hdestination hnormal hw hstaged).mono
      fun ok u _ h => ?_)
    cases ok with
    | false => exact h ▸ hfailed hstaged.isAside
    | true => exact hwritten h

end Tree

end Disk

end RegisterMap
