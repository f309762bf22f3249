import RegisterMap.Proofs.Storage.Changes
import RegisterMap.Proofs.Storage.Routes
import RegisterMap.Storage.Write

/-!
The steps of a disk, told by the sights of its tree. A step may fail at any time; what holds
after it is shown for each of its ends, whatever faults are to come.
-/

namespace RegisterMap

variable {α β : Type}

/-- Whatever faults are to come: from sights of one kind a step ends in sights of another, with
an answer that fits them. -/
def Ends (before : Sights → Prop) (step : StateM Disk α) (after : α → Sights → Prop) : Prop :=
  ∀ d : Disk, d.tree.IsRooted → before d.tree.sight? →
    (step.run d).2.tree.IsRooted ∧ after (step.run d).1 (step.run d).2.tree.sight?

namespace Ends

variable {before before' : Sights → Prop} {after after' : α → Sights → Prop}
  {step : StateM Disk α}

theorem pure {a : α} (h : ∀ v, v.IsTree → before v → after a v) :
    Ends before (Pure.pure a) after :=
  fun _ hroot hbefore => ⟨hroot, h _ (FileTree.isTree_sight? hroot) hbefore⟩

theorem bind {next : α → StateM Disk β} {final : β → Sights → Prop}
    (hstep : Ends before step after) (hnext : ∀ a, Ends (after a) (next a) final) :
    Ends before (step >>= next) final := by
  intro d hroot hbefore
  obtain ⟨hroot', hafter⟩ := hstep d hroot hbefore
  exact hnext _ _ hroot' hafter

theorem strengthen (h : Ends before step after)
    (hbefore : ∀ v, v.IsTree → before' v → before v) : Ends before' step after :=
  fun d hroot hd => h d hroot (hbefore _ (FileTree.isTree_sight? hroot) hd)

theorem mono (h : Ends before step after)
    (hafter : ∀ a v, v.IsTree → after a v → after' a v) : Ends before step after' := by
  intro d hroot hd
  obtain ⟨hroot', hd'⟩ := h d hroot hd
  exact ⟨hroot', hafter _ _ (FileTree.isTree_sight? hroot') hd'⟩

/-- What holds of some sights may be told first. -/
theorem of_forall (h : ∀ v, v.IsTree → before v → Ends (· = v) step after) :
    Ends before step after :=
  fun d hroot hd => h d.tree.sight? (FileTree.isTree_sight? hroot) hd d hroot rfl

theorem bind_get {next : Disk → StateM Disk α}
    (h : ∀ d : Disk, d.tree.IsRooted → before d.tree.sight? →
      Ends (· = d.tree.sight?) (next d) after) : Ends before (get >>= next) after :=
  fun d hroot hd => h d hroot hd d hroot rfl

theorem fault : Ends before Disk.fault fun _ => before := fun _ hroot hd => ⟨hroot, hd⟩

/-- The tree is another one from now on. -/
theorem bind_modify {t : FileTree} (hroot : t.IsRooted) {next : PUnit → StateM Disk α}
    (h : Ends (· = t.sight?) (next ⟨⟩) after) :
    Ends before ((modify fun d : Disk => { d with tree := t }) >>= next) after :=
  fun d _ _ => h { d with tree := t } hroot rfl

end Ends

namespace FileTree

variable {t : FileTree} {p : Path} {place : Location}

theorem isDirectory_iff (h : t.IsRooted) : t.isDirectory p = true ↔ t.sight?.IsDirectory p := by
  rw [isDirectory, Sights.IsDirectory, ← resolve_eq h]
  cases t.resolve p <;> simp

theorem isPresent_iff (h : t.IsRooted) : t.isPresent p = true ↔ t.sight?.IsPresent p := by
  have htree := isTree_sight? h
  rw [isPresent, isDirectory, file?, Sights.IsPresent, resolve_eq h]
  cases hresolve : t.sight?.resolve p with
  | directory place =>
    have hsight := ((Sights.resolve_eq_directory_iff htree).1 hresolve).2.2
    simp [Place.location?, hsight]
  | file place content =>
    have hsight := ((Sights.resolve_eq_file_iff htree).1 hresolve).2.2.1
    simp [Place.location?, hsight]
  | vacant place =>
    have hsight := ((Sights.resolve_eq_vacant_iff htree).1 hresolve).2.2
    simp [Place.location?, hsight]
  | missing => simp [Place.location?]
  | blocked => simp [Place.location?]

/-- The working directory stays where no more than a vacant place or a file changes. -/
theorem isRooted_of_update {t' : FileTree} (h : t.IsRooted) {s : Sight}
    (hnot : t.sight? place ≠ some .directory)
    (ht' : t'.sight? = Function.update t.sight? place (some s)) : t'.IsRooted := by
  have hne : [workingName] ≠ place := by
    rintro rfl
    exact hnot h
  rw [IsRooted, ht', Function.update_of_ne hne]
  exact h

/-- A file, or a directory with nothing in it, made where nothing is. -/
theorem put_vacant (h : t.IsRooted) (hp : t.sight?.resolve p = .vacant place) {e : Entry}
    {s : Sight} (he : e.ShowsOnly s) :
    (t.put place e).IsRooted ∧
      (t.put place e).sight? = Function.update t.sight? place (some s) := by
  have htree := isTree_sight? h
  obtain ⟨-, hleads, hsight⟩ := (Sights.resolve_eq_vacant_iff htree).1 hp
  have hnot : t.sight? place ≠ some .directory := by simp [hsight]
  obtain ⟨parent, name, rfl, hparent⟩ := hleads.exists_parent htree (htree.start p) hnot
  have hput := sight?_put_update hparent hnot he
  exact ⟨isRooted_of_update h hnot hput, hput⟩

end FileTree

namespace Disk

variable {v : Sights} {p : Path}

theorem ends_ask {question : FileTree → Bool} (Answers : Sights → Prop)
    (h : ∀ t : FileTree, t.IsRooted → question t = true → Answers t.sight?) :
    Ends (· = v) (ask question) fun answer w => w = v ∧ (answer = true → Answers v) := by
  refine Ends.fault.bind fun fault => ?_
  split
  case isTrue => exact .pure fun w _ hw => ⟨hw, nofun⟩
  case isFalse =>
    refine .bind_get fun d hroot hd => .pure fun w _ hw => ⟨hw.trans hd, fun hanswer => ?_⟩
    exact hd ▸ h d.tree hroot hanswer

theorem ends_isDirectory :
    Ends (· = v) (fileSystem.isDirectory p) fun answer w =>
      w = v ∧ (answer = true → v.IsDirectory p) :=
  ends_ask (·.IsDirectory p) fun _ hroot => (FileTree.isDirectory_iff hroot).1

theorem ends_isPresent :
    Ends (· = v) (fileSystem.isPresent p) fun answer w =>
      w = v ∧ (answer = true → v.IsPresent p) :=
  ends_ask (·.IsPresent p) fun _ hroot => (FileTree.isPresent_iff hroot).1

theorem ends_makeDirectory :
    Ends (· = v) (fileSystem.makeDirectory p) fun answer w =>
      match answer with
      | .made =>
        ∃ place, v.resolve p = .vacant place ∧ w = Function.update v place (some .directory)
      | _ => w = v := by
  refine Ends.fault.bind fun fault => ?_
  split
  case isTrue => exact .pure fun w _ hw => hw
  case isFalse =>
    refine .bind_get fun d hroot hd => ?_
    dsimp only
    split
    case h_1 place hvacant =>
      have hresolve := FileTree.resolve_eq hroot p ▸ hvacant
      obtain ⟨hroot', hput⟩ := FileTree.put_vacant hroot hresolve Entry.showsOnly_directory
      refine .bind_modify hroot' (.pure fun w _ hw => ?_)
      exact ⟨place, hd ▸ hresolve, by rw [hw, hput, hd]⟩
    case h_2 => exact .pure fun w _ hw => hw.trans hd
    case h_3 => exact .pure fun w _ hw => hw.trans hd

/-- A step that changes the tree, or does not. -/
theorem ends_change {step : FileTree → Option FileTree} {Changes : Sights → Prop}
    (h : ∀ t t' : FileTree, t.IsRooted → t.sight? = v → step t = some t' →
      t'.IsRooted ∧ Changes t'.sight?) :
    Ends (· = v) (change step) fun done w => if done then Changes w else w = v := by
  refine .bind_get fun d hroot hd => ?_
  split
  case h_1 tree hstep =>
    obtain ⟨hroot', hchanges⟩ := h d.tree tree hroot hd hstep
    exact .bind_modify hroot' (.pure fun w _ hw => hw ▸ hchanges)
  case h_2 => exact .pure fun w _ hw => hw.trans hd

/-- A write that does not get to its end leaves the tree as it is, or with a part of the file. -/
theorem ends_write {content : ByteArray} :
    Ends (· = v) (fileSystem.write p content) fun done w =>
      (done = false ∧ w = v) ∨
        ∃ place part, v.CanHold p place ∧ w = Function.update v place (some (.file part)) ∧
          (done = true → part = content) := by
  have hchange (part : ByteArray) :
      Ends (· = v) (change fun t => t.write? p part) fun done w =>
        if done then ∃ place, v.CanHold p place ∧ w = Function.update v place (some (.file part))
        else w = v := by
    refine ends_change fun t t' hroot ht hwrite => ?_
    obtain ⟨place, hcan, hsight⟩ := FileTree.sight?_of_write? hroot hwrite
    have hroot' := FileTree.isRooted_of_update hroot hcan.not_directory hsight
    exact ⟨hroot', place, ht ▸ hcan, ht ▸ hsight⟩
  refine Ends.fault.bind fun fault => ?_
  cases fault with
  | none =>
    refine (hchange content).mono fun done w _ h => ?_
    cases done with
    | false => exact .inl ⟨rfl, h⟩
    | true =>
      obtain ⟨place, hcan, hw⟩ := h
      exact .inr ⟨place, content, hcan, hw, fun _ => rfl⟩
  | failed => exact .pure fun w _ hw => .inl ⟨rfl, hw⟩
  | cutOff bytes =>
    refine (hchange (content.extract 0 bytes)).bind fun done => .pure fun w _ h => ?_
    cases done with
    | false => exact .inl ⟨rfl, h⟩
    | true =>
      obtain ⟨place, hcan, hw⟩ := h
      exact .inr ⟨place, _, hcan, hw, nofun⟩

/-- What is moved does not have the working directory in it. -/
theorem ends_move {source target : Path}
    (h : ∀ old, v.resolve source = .directory old → ¬ old <+: [workingName]) :
    Ends (· = v) (fileSystem.move source target) fun done w =>
      if done then v.Moves source target w else w = v := by
  refine Ends.fault.bind fun fault => ?_
  split
  case isTrue => exact .pure fun w _ hw => hw
  case isFalse =>
    refine ends_change fun t t' hroot ht hmove => ?_
    subst ht
    have hmoves := FileTree.moves_of_move? hroot hmove
    exact ⟨hmoves.working (FileTree.isTree_sight? hroot) h, hmoves⟩

/-- A step that shows something new in a directory, under a staging name that is in none of
some paths, or that does nothing. -/
def Stages (step : StateM Disk (Option Path)) (dir : Path) (paths : List Path) (s : Sight) : Prop :=
  ∀ v : Sights, Ends (· = v) step fun staging w =>
    match staging with
    | none => w = v
    | some p => ∃ n place, p = dir.join ⟨stagingName n⟩ ∧
        .named (stagingName n) ∉ paths.flatMap Path.components ∧ v.resolve p = .vacant place ∧
        w = Function.update v place (some s)

theorem stages_stage {e : Entry} {s : Sight} (he : e.ShowsOnly s) (dir : Path)
    (paths : List Path) : Stages (stage e dir paths) dir paths s := by
  intro v
  refine Ends.fault.bind fun fault => ?_
  split
  case isTrue => exact .pure fun w _ hw => hw
  case isFalse =>
    refine .bind_get fun d hroot hd => ?_
    dsimp only
    split
    case h_1 => exact .pure fun w _ hw => hw.trans hd
    case h_2 p hfresh =>
      obtain ⟨n, hfind, rfl⟩ := Option.map_eq_some_iff.1 hfresh
      have hname := List.find?_some hfind
      rw [Bool.and_eq_true] at hname
      split
      case h_1 place hvacant =>
        have hresolve := FileTree.resolve_eq hroot _ ▸ hvacant
        obtain ⟨hroot', hput⟩ := FileTree.put_vacant hroot hresolve he
        refine .bind_modify hroot' (.pure fun w _ hw => ?_)
        exact ⟨n, place, rfl, by simpa using hname.1, hd ▸ hresolve, by rw [hw, hput, hd]⟩
      case h_2 => exact .pure fun w _ hw => hw.trans hd

/-- What is cleared away, if anything is there, does not have the working directory in it. -/
theorem ends_discard {place : Location} (hopen : p.IsOpen) (hslash : p.endsInSlash = false)
    (hleads : v.Leads p.start p.route place) (hplace : ¬ place <+: [workingName]) :
    Ends (· = v) (fileSystem.discard p) fun _ w => w = v.without place := by
  refine .bind_get fun d hroot hd => ?_
  subst hd
  have htree := FileTree.isTree_sight? hroot
  have hne : place ≠ [] := fun hnil => hplace (hnil ▸ List.nil_prefix)
  have hsight := FileTree.sight?_remove d.tree hne
  have hroot' : (d.tree.remove place).IsRooted := by
    rw [FileTree.IsRooted, hsight, Sights.without, if_neg hplace]
    exact hroot
  dsimp only
  rw [FileTree.resolve_eq hroot]
  rcases hthere : d.tree.sight? place with _ | content | _
  · rw [(Sights.resolve_eq_vacant_iff htree).2 ⟨hopen, hleads, hthere⟩,
      htree.without_eq_self hthere]
    exact .pure fun w _ hw => hw
  · rw [(Sights.resolve_eq_file_iff htree).2 ⟨hopen, hleads, hthere, hslash⟩]
    exact fun e _ _ => ⟨hroot', hsight⟩
  · rw [(Sights.resolve_eq_directory_iff htree).2 ⟨hopen, hleads, hthere⟩]
    exact fun e _ _ => ⟨hroot', hsight⟩

end Disk

/-! Steps that may break off. -/

/-- The same for steps that end with an answer or break off. -/
def EndsOr (before : Sights → Prop) (step : ExceptT ExportError (StateM Disk) α)
    (after : α → Sights → Prop) (failed : Sights → Prop) : Prop :=
  Ends before step.run fun
    | .ok a => after a
    | .error _ => failed

namespace EndsOr

variable {before before' : Sights → Prop} {after after' : α → Sights → Prop}
  {failed failed' : Sights → Prop} {step : ExceptT ExportError (StateM Disk) α}

theorem pure {a : α} (h : ∀ v, v.IsTree → before v → after a v) :
    EndsOr before (Pure.pure a) after failed :=
  Ends.pure h

theorem bind {next : α → ExceptT ExportError (StateM Disk) β} {final : β → Sights → Prop}
    (hstep : EndsOr before step after failed)
    (hnext : ∀ a, EndsOr (after a) (next a) final failed) :
    EndsOr before (step >>= next) final failed := by
  rw [EndsOr, ExceptT.run_bind]
  refine Ends.bind hstep fun result => ?_
  cases result with
  | ok a => exact hnext a
  | error e => exact .pure fun _ _ h => h

theorem strengthen (h : EndsOr before step after failed)
    (hbefore : ∀ v, v.IsTree → before' v → before v) : EndsOr before' step after failed :=
  Ends.strengthen h hbefore

theorem mono (h : EndsOr before step after failed)
    (hafter : ∀ a v, v.IsTree → after a v → after' a v)
    (hfailed : ∀ v, v.IsTree → failed v → failed' v) : EndsOr before step after' failed' := by
  refine Ends.mono h fun result v hv hresult => ?_
  cases result with
  | ok a => exact hafter a v hv hresult
  | error e => exact hfailed v hv hresult

theorem mono_failed (h : EndsOr before step after failed)
    (hfailed : ∀ v, v.IsTree → failed v → failed' v) : EndsOr before step after failed' :=
  h.mono (fun _ _ _ ha => ha) hfailed

theorem of_forall (h : ∀ v, v.IsTree → before v → EndsOr (· = v) step after failed) :
    EndsOr before step after failed :=
  Ends.of_forall h

theorem lift {step : StateM Disk α} (h : Ends before step after) :
    EndsOr before (monadLift step) after failed :=
  Ends.bind h fun _ => .pure fun _ _ ha => ha

theorem throw {e : ExportError} (h : ∀ v, v.IsTree → before v → failed v) :
    EndsOr before (MonadExcept.throw e) after failed :=
  Ends.pure h

theorem require {p : Path} {step : StateM Disk Bool} {done : Sights → Prop}
    (h : Ends before step fun ok => if ok then done else failed) :
    EndsOr before (FileSystem.require p step) (fun _ => done) failed := by
  refine (lift h).bind fun ok => ?_
  cases ok with
  | false => exact .throw fun _ _ hfailed => hfailed
  | true => exact .pure fun _ _ hdone => hdone

theorem of_run_eq_ok (h : EndsOr before step after failed) {d d' : Disk} {a : α}
    (hroot : d.tree.IsRooted) (hbefore : before d.tree.sight?)
    (hrun : step.run.run d = (.ok a, d')) : d'.tree.IsRooted ∧ after a d'.tree.sight? := by
  obtain ⟨hroot', hafter⟩ := h d hroot hbefore
  rw [hrun] at hroot' hafter
  exact ⟨hroot', hafter⟩

theorem of_run_eq_error (h : EndsOr before step after failed) {d d' : Disk} {e : ExportError}
    (hroot : d.tree.IsRooted) (hbefore : before d.tree.sight?)
    (hrun : step.run.run d = (.error e, d')) : d'.tree.IsRooted ∧ failed d'.tree.sight? := by
  obtain ⟨hroot', hafter⟩ := h d hroot hbefore
  rw [hrun] at hroot' hafter
  exact ⟨hroot', hafter⟩

end EndsOr

/-! Making directories. -/

/-- What stays when directories are made on the way of a path. -/
def StaysOnWay (p : Path) (J : Sights → Prop) : Prop :=
  ∀ (v : Sights) pieces place, v.IsTree →
    Sights.IsTree (Function.update v place (some .directory)) → J v → pieces <+: p.route →
    v.Leads p.start pieces place → v place = none → J (Function.update v place (some .directory))

/-- The way of the directory around is a part of the way. -/
theorem StaysOnWay.parent {J : Sights → Prop} {p above : Path} (hJ : StaysOnWay p J)
    (habove : p.parent? = some above) : StaysOnWay above J := by
  obtain ⟨hstart, rest, hroute, -⟩ := Path.exists_route_of_parent? habove
  intro v pieces place hv hw hJv hpieces hleads hvacant
  have hway : pieces <+: p.route := hpieces.trans ⟨rest, hroute.symm⟩
  exact hJ v pieces place hv hw hJv hway (hstart ▸ hleads) hvacant

namespace Disk

variable {J : Sights → Prop} {p : Path}

theorem ends_makeDirectory_of_stays (hJ : StaysOnWay p J) :
    Ends J (fileSystem.makeDirectory p) fun answer v =>
      J v ∧ (answer = .made → v.IsDirectory p) := by
  refine .of_forall fun v hv hbefore => ends_makeDirectory.mono fun answer w hw h => ?_
  cases answer with
  | made =>
    obtain ⟨place, hresolve, rfl⟩ := h
    obtain ⟨hopen, hleads, hvacant⟩ := (Sights.resolve_eq_vacant_iff hv).1 hresolve
    refine ⟨hJ v _ place hv hw hbefore List.prefix_rfl hleads hvacant, fun _ => ⟨place, ?_⟩⟩
    have hkeep (d : Location) (hd : v d = some .directory) :
        Function.update v place (some .directory) d = some .directory := by
      by_cases hplace : d = place
      · rw [hplace, Function.update_self]
      · rw [Function.update_of_ne hplace, hd]
    exact (Sights.resolve_eq_directory_iff hw).2
      ⟨hopen, hleads.keep hkeep, Function.update_self ..⟩
  | orphaned => exact ⟨h ▸ hbefore, nofun⟩
  | refused => exact ⟨h ▸ hbefore, nofun⟩

theorem ends_isDirectory_of_stays :
    Ends J (fileSystem.isDirectory p) fun answer v => J v ∧ (answer = true → v.IsDirectory p) :=
  .of_forall fun _ _ hbefore => ends_isDirectory.mono fun _ _ _ ⟨hw, hanswer⟩ =>
    hw ▸ ⟨hbefore, hanswer⟩

theorem ends_makeDirectoriesWithin {p : Path} (hJ : StaysOnWay p J) (around : Nat) :
    Ends J (fileSystem.makeDirectoriesWithin p around) fun made v =>
      J v ∧ (made = true → p.text.isEmpty = false → v.IsDirectory p) := by
  have hask : Ends J (fileSystem.isDirectory p) fun made v =>
      J v ∧ (made = true → p.text.isEmpty = false → v.IsDirectory p) :=
    ends_isDirectory_of_stays.mono fun _ _ _ ⟨hstays, hmade⟩ =>
      ⟨hstays, fun h _ => hmade h⟩
  have hgoing (answer : Making) : Ends (fun v => J v ∧ (answer = .made → v.IsDirectory p))
      (match answer with
        | .made => Pure.pure true
        | _ => fileSystem.isDirectory p)
      fun made v => J v ∧ (made = true → p.text.isEmpty = false → v.IsDirectory p) := by
    cases answer with
    | made => exact .pure fun v _ h => ⟨h.1, fun _ _ => h.2 rfl⟩
    | orphaned => exact hask.strengthen fun _ _ h => h.1
    | refused => exact hask.strengthen fun _ _ h => h.1
  have hstop : Ends J (Pure.pure false) fun made v =>
      J v ∧ (made = true → p.text.isEmpty = false → v.IsDirectory p) :=
    .pure fun v _ h => ⟨h, nofun⟩
  unfold FileSystem.makeDirectoriesWithin
  split
  case isTrue hempty => exact .pure fun v _ h => ⟨h, fun _ hnot => absurd hempty (by simp [hnot])⟩
  case isFalse =>
    refine (ends_makeDirectory_of_stays hJ).bind fun answer => ?_
    cases answer with
    | made => exact hgoing .made
    | refused => exact hgoing .refused
    | orphaned =>
      refine Ends.strengthen (?_ : Ends J _ _) fun _ _ h => h.1
      dsimp only
      split
      case h_1 around above habove =>
        refine (ends_makeDirectoriesWithin (hJ.parent habove) around).bind fun made => ?_
        cases made with
        | false => exact hstop.strengthen fun _ _ h => h.1
        | true =>
          refine ((ends_makeDirectory_of_stays hJ).bind fun answer => ?_).strengthen
            fun _ _ h => h.1
          cases answer with
          | made => exact hgoing .made
          | orphaned => exact hgoing .orphaned
          | refused => exact hgoing .refused
      case h_2 => exact hstop

/-- A directory on the way of a path. -/
theorem ends_requireDirectory (hJ : StaysOnWay p J) (hp : p.text.isEmpty = false) :
    EndsOr J (fileSystem.requireDirectory p) (fun _ v => J v ∧ v.IsDirectory p) J :=
  .require <| (ends_makeDirectoriesWithin hJ _).mono fun made v _ h => by
    cases made with
    | false => exact h.1
    | true => exact ⟨h.1, h.2 rfl hp⟩

theorem ends_requireParent (hJ : StaysOnWay p J) :
    EndsOr J (fileSystem.requireParent p) (fun _ => J) J := by
  unfold FileSystem.requireParent
  split
  case h_1 above habove =>
    refine .require <| (ends_makeDirectoriesWithin (hJ.parent habove) _).mono fun made v _ h => ?_
    cases made <;> exact h.1
  case h_2 => exact .pure fun _ _ h => h

end Disk

end RegisterMap
