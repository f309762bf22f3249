import RegisterMap.Proofs.Storage.Walk

/-!
What writing and moving do to the sights of a tree: where a file or a directory is put, and
what is gone from its place.
-/

namespace RegisterMap

namespace Sights

variable {v : Sights} {place : Location}

/-- A file can be put where a path leads. -/
structure CanHold (v : Sights) (p : Path) (place : Location) : Prop where
  isOpen : p.IsOpen
  leads : v.Leads p.start p.route place
  not_directory : v place ≠ some .directory
  noSlash : p.endsInSlash = false

/-- A directory can be put where a path leads: there is nothing, or a directory without
anything. -/
structure CanTake (v : Sights) (p : Path) (place : Location) : Prop where
  isOpen : p.IsOpen
  leads : v.Leads p.start p.route place
  hollow : ∀ rest, rest ≠ [] → v (place ++ rest) = none
  not_file : v place = none ∨ v place = some .directory

/-- A directory moved to another place with all that is below it. -/
def moved (v : Sights) (old new : Location) : Sights := fun other =>
  if new <+: other then v (old ++ other.drop new.length) else v.without old other

/-- What is seen after a path was moved to where another one leads. -/
inductive Moves (v : Sights) (source target : Path) : Sights → Prop
  | file {old new : Location} {content : ByteArray} : v.resolve source = .file old content →
      v.CanHold target new →
      Moves v source target (Function.update (v.without old) new (some (.file content)))
  | directory {old new : Location} : v.resolve source = .directory old → v.CanTake target new →
      ¬ old <+: new → Moves v source target (v.moved old new)

theorem Moves.working {w : Sights} {source target : Path} (hv : v.IsTree)
    (hsource : ∀ old, v.resolve source = .directory old → ¬ old <+: [workingName])
    (h : v.Moves source target w) : w [workingName] = some .directory := by
  cases h with
  | @file old new content hold hnew =>
    have hfile := ((resolve_eq_file_iff hv).1 hold).2.2.1
    have hnot : ¬ old <+: [workingName] := by
      rintro ⟨rest, hrest⟩
      have hworking := hv.working
      by_cases hnil : rest = []
      · rw [← hrest, hnil, List.append_nil, hfile] at hworking
        cases hworking
      · rw [hv.above_append hnil (by rw [hrest, hworking]; simp)] at hfile
        cases hfile
    have hne : [workingName] ≠ new := by
      rintro rfl
      exact hnew.not_directory hv.working
    rw [Function.update_of_ne hne, without, if_neg hnot, hv.working]
  | @directory old new hold hnew _ =>
    have hdirectory := ((resolve_eq_directory_iff hv).1 hold).2.2
    rw [moved]
    split
    case isTrue hunder =>
      obtain ⟨rest, hrest⟩ := hunder
      have hnil : rest = [] := by
        by_contra hnil
        have hnone := hnew.hollow rest hnil
        rw [hrest, hv.working] at hnone
        cases hnone
      rw [← hrest, List.drop_left, hnil, List.append_nil, hdirectory]
    case isFalse => rw [without, if_neg (hsource old hold), hv.working]

end Sights

namespace FileTree

open Sights (CanHold CanTake)

variable {t t' : FileTree} {p source target : Path} {place : Location}

theorem canHold_of_resolve_file (h : t.IsRooted) {content : ByteArray}
    (hp : t.resolve p = .file place content) :
    t.sight?.CanHold p place ∧ t.sight? place = some (.file content) := by
  rw [resolve_eq h, Sights.resolve_eq_file_iff (isTree_sight? h)] at hp
  obtain ⟨hopen, hleads, hsight, hslash⟩ := hp
  exact ⟨⟨hopen, hleads, by simp [hsight], hslash⟩, hsight⟩

theorem canHold_of_resolve_vacant (h : t.IsRooted) (hp : t.resolve p = .vacant place)
    (hslash : p.endsInSlash = false) : t.sight?.CanHold p place := by
  rw [resolve_eq h, Sights.resolve_eq_vacant_iff (isTree_sight? h)] at hp
  obtain ⟨hopen, hleads, hsight⟩ := hp
  exact ⟨hopen, hleads, by simp [hsight], hslash⟩

theorem sight?_of_write? (h : t.IsRooted) {content : ByteArray}
    (hwrite : t.write? p content = some t') :
    ∃ place, t.sight?.CanHold p place ∧
      t'.sight? = Function.update t.sight? place (some (.file content)) := by
  have htree := isTree_sight? h
  have hput {place : Location} (hp : t.sight?.CanHold p place) :
      (t.put place (.file content)).sight? =
        Function.update t.sight? place (some (.file content)) := by
    obtain ⟨parent, name, rfl, hparent⟩ :=
      hp.leads.exists_parent htree (htree.start p) hp.not_directory
    exact sight?_put_file hparent hp.not_directory content
  unfold write? at hwrite
  split at hwrite
  case h_1 place old hfile =>
    obtain rfl := Option.some.inj hwrite
    have hp := (canHold_of_resolve_file h hfile).1
    exact ⟨place, hp, hput hp⟩
  case h_2 place hvacant =>
    split at hwrite
    case isTrue => cases hwrite
    case isFalse hslash =>
      obtain rfl := Option.some.inj hwrite
      have hp := canHold_of_resolve_vacant h hvacant (by simpa using hslash)
      exact ⟨place, hp, hput hp⟩
  case h_3 => cases hwrite

/-- A file put where a path leads, when another one is gone. -/
theorem sight?_replace (h : t.IsRooted) {old : Location} {content : ByteArray}
    (hold : t.sight? old = some (.file content)) (hp : t.sight?.CanHold p place) :
    ((t.remove old).put place (.file content)).sight? =
      Function.update (t.sight?.without old) place (some (.file content)) := by
  have htree := isTree_sight? h
  obtain ⟨parent, name, rfl, hparent⟩ :=
    hp.leads.exists_parent htree (htree.start p) hp.not_directory
  have hnil : old ≠ [] := by
    rintro rfl
    cases hold
  have hbeside : ¬ old <+: parent := by
    rintro ⟨rest, rfl⟩
    by_cases hrest : rest = []
    · rw [hrest, List.append_nil, hold] at hparent
      cases hparent
    · rw [sight?_append_eq_none (by simp [hold]) hrest] at hparent
      cases hparent
  have hgone := sight?_remove t hnil
  have hstill : (t.remove old).sight? parent = some .directory := by
    rw [hgone, Sights.without, if_neg hbeside, hparent]
  have hfree : (t.remove old).sight? (parent ++ [name]) ≠ some .directory := by
    rw [hgone, Sights.without]
    split
    · simp
    · exact hp.not_directory
  rw [sight?_put_file hstill hfree, hgone]

/-- A directory put where a path leads, when it is gone from its place. -/
theorem sight?_moved (h : t.IsRooted) {old : Location} {e : Entry} (hold : t.get? old = some e)
    (hp : t.sight?.CanTake p place) (hbeside : ¬ old <+: place) :
    ((t.remove old).put place e).sight? = t.sight?.moved old place := by
  have htree := isTree_sight? h
  have hplace : place ≠ [] := by
    rintro rfl
    have hnone := hp.hollow [workingName] (List.cons_ne_nil _ _)
    rw [List.nil_append, htree.working] at hnone
    cases hnone
  obtain ⟨parent, name, rfl⟩ : ∃ parent name, place = parent ++ [name] :=
    ⟨_, _, (List.dropLast_concat_getLast hplace).symm⟩
  have hparent : t.sight? parent = some .directory := by
    rcases hp.not_file with hnone | hdirectory
    · obtain ⟨above, last, heq, habove⟩ :=
        hp.leads.exists_parent htree (htree.start p) (by simp [hnone])
      rwa [(List.append_inj' heq rfl).1]
    · exact htree.above parent name (by simp [hdirectory])
  have hnil : old ≠ [] := fun hnil => hbeside (hnil ▸ List.nil_prefix)
  have hgone := sight?_remove t hnil
  have hstill : (t.remove old).sight? parent = some .directory := by
    have hnot : ¬ old <+: parent := fun hunder => hbeside (hunder.trans (List.prefix_append _ _))
    rw [hgone, Sights.without, if_neg hnot, hparent]
  funext other
  rw [Sights.moved]
  split
  case isTrue hunder =>
    obtain ⟨rest, rfl⟩ := hunder
    rw [sight?_put_append _ hplace, List.drop_left, sight?_of_get? hold]
  case isFalse hunder => rw [sight?_put_beside hstill name e hunder, hgone]

theorem canTake_of_isHollow (h : t.IsRooted) (hp : t.resolve p = .directory place)
    (hhollow : t.isHollow place = true) : t.sight?.CanTake p place := by
  rw [resolve_eq h, Sights.resolve_eq_directory_iff (isTree_sight? h)] at hp
  obtain ⟨hopen, hleads, hsight⟩ := hp
  refine ⟨hopen, hleads, fun rest hrest => ?_, .inr hsight⟩
  unfold isHollow at hhollow
  split at hhollow
  case h_1 hget =>
    rw [sight?_of_get? hget]
    cases rest with
    | nil => exact absurd rfl hrest
    | cons name more => rfl
  case h_2 => cases hhollow

theorem moves_of_move? (h : t.IsRooted) (hmove : t.move? source target = some t') :
    t.sight?.Moves source target t'.sight? := by
  have htree := isTree_sight? h
  have hdirectory {old new : Location} (hsource : t.resolve source = .directory old)
      (htake : t.sight?.CanTake target new) (hbeside : ¬ old <+: new)
      (hmoved : (t.get? old).map ((t.remove old).put new) = some t') :
      t'.sight? = t.sight?.moved old new := by
    obtain ⟨e, hget, rfl⟩ := Option.map_eq_some_iff.1 hmoved
    exact sight?_moved h hget htake hbeside
  unfold move? at hmove
  split at hmove
  case h_1 old content new found hsource htarget =>
    obtain rfl := Option.some.inj hmove
    have hold := (canHold_of_resolve_file h hsource).2
    have hnew := (canHold_of_resolve_file h htarget).1
    exact sight?_replace h hold hnew ▸ .file (resolve_eq h source ▸ hsource) hnew
  case h_2 old content new hsource htarget =>
    split at hmove
    case isTrue => cases hmove
    case isFalse hslash =>
      obtain rfl := Option.some.inj hmove
      have hold := (canHold_of_resolve_file h hsource).2
      have hnew := canHold_of_resolve_vacant h htarget (by simpa using hslash)
      exact sight?_replace h hold hnew ▸ .file (resolve_eq h source ▸ hsource) hnew
  case h_3 old new hsource htarget =>
    split at hmove
    case isTrue => cases hmove
    case isFalse hbeside =>
      have hnot : ¬ old <+: new := by rwa [← List.isPrefixOf_iff_prefix]
      have htake : t.sight?.CanTake target new := by
        rw [resolve_eq h, Sights.resolve_eq_vacant_iff htree] at htarget
        obtain ⟨hopen, hleads, hsight⟩ := htarget
        exact ⟨hopen, hleads, fun rest hrest => sight?_append_eq_none (by simp [hsight]) hrest,
          .inl hsight⟩
      exact hdirectory hsource htake hnot hmove ▸
        .directory (resolve_eq h source ▸ hsource) htake hnot
  case h_4 old new hsource htarget =>
    split at hmove
    case isTrue => cases hmove
    case isFalse hbeside =>
      rw [Bool.or_eq_true, not_or, Bool.not_eq_true', Bool.not_eq_false] at hbeside
      have hnot : ¬ old <+: new := by
        rw [← List.isPrefixOf_iff_prefix]
        exact hbeside.1
      have htake := canTake_of_isHollow h htarget hbeside.2
      exact hdirectory hsource htake hnot hmove ▸
        .directory (resolve_eq h source ▸ hsource) htake hnot
  case h_5 => cases hmove

end FileTree

end RegisterMap
