import Mathlib.Data.List.Induction
import Mathlib.Logic.Function.Basic
import Mathlib.Tactic.Common
import RegisterMap.Storage.FileSystem

/-!
A tree of files seen from its places. Each place shows a file with its content, a directory
or nothing; how entries are listed does not show. Putting, removing and moving entries are
changes of what some places show.
-/

namespace RegisterMap

/-- What a place shows: a file with its content or a directory, whatever is in it. -/
inductive Sight where
  | file (content : ByteArray)
  | directory

/-- What all places show. -/
abbrev Sights := Location → Option Sight

/-- What an entry shows at a place below it. -/
def Entry.sight? : Entry → Location → Option Sight
  | .file content, [] => some (.file content)
  | .file _, _ :: _ => none
  | .directory _, [] => some .directory
  | .directory entries, name :: rest =>
    match entries.lookup name with
    | some e => e.sight? rest
    | none => none

/-- An entry that shows one thing and has nothing below it. -/
def Entry.ShowsOnly (e : Entry) (s : Sight) : Prop :=
  ∀ rest, e.sight? rest = if rest = [] then some s else none

theorem Entry.showsOnly_file (content : ByteArray) :
    (Entry.file content).ShowsOnly (.file content) :=
  fun rest => by cases rest <;> rfl

theorem Entry.showsOnly_directory : (Entry.directory []).ShowsOnly .directory :=
  fun rest => by cases rest <;> rfl

/-- Only a directory has something below it. -/
theorem Entry.above_of_sight? (e : Entry) {place rest : Location} (hrest : rest ≠ [])
    (h : e.sight? (place ++ rest) ≠ none) : e.sight? place = some .directory := by
  induction place generalizing e with
  | nil =>
    cases e with
    | directory entries => rfl
    | file content =>
      cases rest with
      | nil => exact absurd rfl hrest
      | cons name more => exact absurd rfl h
  | cons name more ih =>
    cases e with
    | file content => exact absurd rfl h
    | directory entries =>
      rw [List.cons_append, Entry.sight?] at h
      rw [Entry.sight?]
      cases hname : entries.lookup name with
      | none =>
        rw [hname] at h
        exact absurd rfl h
      | some inner =>
        rw [hname] at h
        exact ih inner h

namespace Sights

/-- The sights of a tree: only directories have something below them. -/
structure IsTree (v : Sights) : Prop where
  outermost : v [] = some .directory
  working : v [workingName] = some .directory
  above : ∀ place name, v (place ++ [name]) ≠ none → v place = some .directory

theorem IsTree.above_append {v : Sights} (hv : v.IsTree) {place rest : Location}
    (hrest : rest ≠ []) (h : v (place ++ rest) ≠ none) : v place = some .directory := by
  induction rest using List.reverseRecOn with
  | nil => exact absurd rfl hrest
  | append_singleton rest name ih =>
    rw [← List.append_assoc] at h
    have habove := hv.above _ _ h
    by_cases hnil : rest = []
    · rw [hnil, List.append_nil] at habove
      exact habove
    · exact ih hnil (by rw [habove]; simp)

/-- Directories stay directories. -/
def Keeps (v w : Sights) : Prop := ∀ place, v place = some .directory → w place = some .directory

theorem Keeps.refl (v : Sights) : v.Keeps v := fun _ h => h

theorem Keeps.trans {u v w : Sights} (huv : u.Keeps v) (hvw : v.Keeps w) : u.Keeps w :=
  fun place h => hvw place (huv place h)

theorem keeps_update {v : Sights} {place : Location} {s : Sight}
    (h : v place ≠ some .directory ∨ s = .directory) :
    v.Keeps (Function.update v place (some s)) := by
  intro other hother
  by_cases hplace : other = place
  · subst hplace
    rcases h with hnot | rfl
    · exact absurd hother hnot
    · exact Function.update_self ..
  · rw [Function.update_of_ne hplace, hother]

/-- All but a place and what is below it. -/
def without (v : Sights) (place : Location) : Sights :=
  fun other => if place <+: other then none else v other

theorem IsTree.without_eq_self {v : Sights} (hv : v.IsTree) {place : Location}
    (h : v place = none) : v.without place = v := by
  funext other
  rw [without]
  split
  case isTrue hunder =>
    obtain ⟨rest, rfl⟩ := hunder
    by_contra hother
    by_cases hnil : rest = []
    · rw [hnil, List.append_nil, h] at hother
      exact hother rfl
    · rw [hv.above_append hnil (Ne.symm hother)] at h
      cases h
  case isFalse => rfl

end Sights

namespace FileTree

/-- What is seen at a place of a tree. -/
def sight? (t : FileTree) : Sights := (Entry.directory t).sight?

/-- The working directory is there. -/
def IsRooted (t : FileTree) : Prop := t.sight? [workingName] = some .directory

theorem sight?_cons (t : FileTree) (name : String) (rest : Location) :
    t.sight? (name :: rest) = (t.lookup name).bind (·.sight? rest) := by
  rw [sight?, Entry.sight?]
  cases t.lookup name <;> rfl

theorem sight?_of_get? {t : FileTree} {place : Location} {e : Entry} (h : t.get? place = some e)
    (rest : Location) : t.sight? (place ++ rest) = e.sight? rest := by
  induction place generalizing t with
  | nil =>
    obtain rfl : Entry.directory t = e := Option.some.inj h
    rfl
  | cons name more ih =>
    rw [List.cons_append, sight?_cons]
    rw [get?] at h
    cases hname : t.lookup name with
    | none =>
      rw [hname] at h
      cases h
    | some entry =>
      rw [hname] at h
      cases entry with
      | directory entries => exact ih h
      | file content =>
        cases more with
        | nil =>
          obtain rfl : Entry.file content = e := by simpa using h
          rfl
        | cons next more => simp at h

theorem isTree_sight? {t : FileTree} (h : t.IsRooted) : t.sight?.IsTree :=
  ⟨rfl, h, fun place name hsome => Entry.above_of_sight? (.directory t) (by simp) hsome⟩

/-- A directory in the outermost one has what is seen below its name. -/
theorem sight?_cons_eq_below {t : FileTree} {name : String} (h : t.sight? [name] = some .directory)
    (rest : Location) : t.sight? (name :: rest) = (t.below name).sight? rest := by
  rw [sight?_cons] at h ⊢
  rw [below]
  cases hname : t.lookup name with
  | none =>
    rw [hname] at h
    cases h
  | some e =>
    rw [hname] at h
    cases e with
    | file content => cases h
    | directory entries => rfl

/-! Putting and removing. -/

theorem sight?_set (t : FileTree) (name : String) (e : Entry) (other : String) (rest : Location) :
    (t.set name e).sight? (other :: rest) =
      if other = name then e.sight? rest else t.sight? (other :: rest) := by
  rw [sight?_cons, sight?_cons]
  split
  case isTrue h => rw [h, lookup_set_self, Option.bind_some]
  case isFalse h => rw [lookup_set_of_ne t h]

/-- An entry that is put at a place is seen there and below. -/
theorem sight?_put_append (t : FileTree) {place : Location} (hne : place ≠ []) (e : Entry)
    (rest : Location) : (t.put place e).sight? (place ++ rest) = e.sight? rest :=
  sight?_of_get? (get?_put_self t hne e) rest

/-- What is put in a directory that is there changes nothing that is not below it. -/
theorem sight?_put_beside {t : FileTree} {parent : Location}
    (h : t.sight? parent = some .directory) (name : String) (e : Entry) {other : Location}
    (hother : ¬ parent ++ [name] <+: other) :
    (t.put (parent ++ [name]) e).sight? other = t.sight? other := by
  induction parent generalizing t other with
  | nil =>
    cases other with
    | nil => rfl
    | cons first rest =>
      have hfirst : first ≠ name := fun h =>
        hother (List.cons_prefix_cons.2 ⟨h.symm, List.nil_prefix⟩)
      rw [List.nil_append, put, sight?_set, if_neg hfirst]
  | cons above more ih =>
    have habove : t.sight? [above] = some .directory := by
      cases more with
      | nil => exact h
      | cons second rest =>
        have hsome : t.sight? ([above] ++ second :: rest) ≠ none := by
          rw [List.singleton_append, h]
          exact Option.some_ne_none _
        exact Entry.above_of_sight? (.directory t) (List.cons_ne_nil second rest) hsome
    have hput : t.put (above :: (more ++ [name])) e =
        t.set above (.directory ((t.below above).put (more ++ [name]) e)) := by
      cases more <;> rfl
    rw [sight?_cons_eq_below habove] at h
    rw [List.cons_append] at hother ⊢
    rw [hput]
    cases other with
    | nil => rfl
    | cons first rest =>
      rw [sight?_set]
      split
      case isTrue hfirst =>
        subst hfirst
        rw [sight?_cons_eq_below habove]
        exact ih h fun hunder => hother (List.cons_prefix_cons.2 ⟨rfl, hunder⟩)
      case isFalse => rfl

theorem lookup_filter_self (t : FileTree) (name : String) :
    (t.filter fun e => e.1 != name).lookup name = none := by
  rw [List.lookup_eq_none_iff]
  intro e he
  have hne := (List.mem_filter.1 he).2
  rw [bne_iff_ne] at hne ⊢
  exact hne.symm

theorem sight?_remove_singleton (t : FileTree) (name : String) :
    (t.remove [name]).sight? = t.sight?.without [name] := by
  funext other
  rw [Sights.without]
  cases other with
  | nil => rfl
  | cons first rest =>
    simp only [List.cons_prefix_cons]
    rw [remove, sight?_cons, sight?_cons]
    by_cases hfirst : name = first
    · rw [← hfirst, lookup_filter_self, if_pos ⟨rfl, List.nil_prefix⟩]
      rfl
    · rw [lookup_filter_ne t (Ne.symm hfirst), if_neg fun h => hfirst h.1]

theorem remove_cons_of_directory {t entries : FileTree} {name : String} {rest : Location}
    (h : t.lookup name = some (.directory entries)) (hrest : rest ≠ []) :
    t.remove (name :: rest) = t.set name (.directory (remove entries rest)) := by
  cases rest with
  | nil => exact absurd rfl hrest
  | cons next more => rw [remove, h]

theorem remove_cons_of_not_directory {t : FileTree} {name : String} {rest : Location}
    (h : ∀ entries, t.lookup name ≠ some (.directory entries)) (hrest : rest ≠ []) :
    t.remove (name :: rest) = t := by
  cases rest with
  | nil => exact absurd rfl hrest
  | cons next more =>
    rw [remove]
    split
    case h_1 entries hname => exact absurd hname (h entries)
    case h_2 => rfl

/-- Nothing is seen below a name that leads to no directory. -/
theorem sight?_cons_eq_none {t : FileTree} {name : String} {rest : Location}
    (h : ∀ entries, t.lookup name ≠ some (.directory entries)) (hrest : rest ≠ []) :
    t.sight? (name :: rest) = none := by
  obtain ⟨next, more, rfl⟩ := List.exists_cons_of_ne_nil hrest
  rw [sight?_cons]
  cases hname : t.lookup name with
  | none => rfl
  | some e =>
    cases e with
    | file content => rfl
    | directory entries => exact absurd hname (h entries)

/-- What is removed is seen no more, and neither is what was below it. -/
theorem sight?_remove (t : FileTree) {place : Location} (hne : place ≠ []) :
    (t.remove place).sight? = t.sight?.without place := by
  induction place generalizing t with
  | nil => exact absurd rfl hne
  | cons name more ih =>
    by_cases hmore : more = []
    · rw [hmore, sight?_remove_singleton]
    funext other
    rw [Sights.without]
    by_cases hdirectory : ∃ entries, t.lookup name = some (.directory entries)
    · obtain ⟨entries, hname⟩ := hdirectory
      rw [remove_cons_of_directory hname hmore]
      cases other with
      | nil => rfl
      | cons first rest =>
        simp only [sight?_set, List.cons_prefix_cons]
        by_cases hfirst : name = first
        · subst hfirst
          rw [if_pos rfl, sight?_cons, hname]
          simp only [true_and]
          exact congrFun (ih entries hmore) rest
        · rw [if_neg (Ne.symm hfirst), if_neg fun h => hfirst h.1]
    · have hnot := not_exists.1 hdirectory
      rw [remove_cons_of_not_directory hnot hmore]
      split
      case isTrue hunder =>
        obtain ⟨last, rfl⟩ := hunder
        rw [List.cons_append]
        exact sight?_cons_eq_none hnot (List.append_ne_nil_of_left_ne_nil hmore last)
      case isFalse => rfl

/-! What the steps of a disk do to the sights of its tree. -/

variable {t : FileTree} {parent : Location} {name : String}

/-- Nothing is seen below a place that shows no directory. -/
theorem sight?_append_eq_none {place rest : Location} (h : t.sight? place ≠ some .directory)
    (hrest : rest ≠ []) : t.sight? (place ++ rest) = none := by
  by_contra hsome
  exact h (Entry.above_of_sight? (.directory t) hrest hsome)

/-- An entry without anything below it, put where there is no directory. -/
theorem sight?_put_update (hparent : t.sight? parent = some .directory)
    (hplace : t.sight? (parent ++ [name]) ≠ some .directory) {e : Entry} {s : Sight}
    (he : e.ShowsOnly s) :
    (t.put (parent ++ [name]) e).sight? =
      Function.update t.sight? (parent ++ [name]) (some s) := by
  funext other
  by_cases hunder : parent ++ [name] <+: other
  · obtain ⟨rest, rfl⟩ := hunder
    rw [sight?_put_append t (by simp), he]
    split
    case isTrue hnil => rw [hnil, List.append_nil, Function.update_self]
    case isFalse hrest =>
      rw [Function.update_of_ne (by simpa using hrest), sight?_append_eq_none hplace hrest]
  · have hne : other ≠ parent ++ [name] := fun h => hunder (h ▸ List.prefix_rfl)
    rw [sight?_put_beside hparent name e hunder, Function.update_of_ne hne]

theorem sight?_put_file (hparent : t.sight? parent = some .directory)
    (hplace : t.sight? (parent ++ [name]) ≠ some .directory) (content : ByteArray) :
    (t.put (parent ++ [name]) (.file content)).sight? =
      Function.update t.sight? (parent ++ [name]) (some (.file content)) :=
  sight?_put_update hparent hplace (Entry.showsOnly_file content)

end FileTree

end RegisterMap
