import RegisterMap.Proofs.Storage.Sights

/-!
Paths followed by sight. Where a path leads depends on what the places on its way show, and
on nothing else: it leads on while directories stay, and it does not care for what is added
or removed beside its way.
-/

namespace RegisterMap

/-- The place that is led to, whether anything is there or not. -/
def Place.location? : Place → Option Location
  | .directory place => some place
  | .file place _ => some place
  | .vacant place => some place
  | .missing => none
  | .blocked => none

/-- The pieces that a path is followed by. -/
def Path.route (p : Path) : List (List Char) := p.pieces.filter (!·.isEmpty)

/-- The directory that a path starts from. -/
def Path.start (p : Path) : Location := if p.isAbsolute then [] else [workingName]

/-- A path that can be followed. -/
def Path.IsOpen (p : Path) : Prop := p.text.isEmpty = false ∧ p.isFollowable = true

/-- The names in the pieces of a path. -/
def namesOf (pieces : List (List Char)) : Location :=
  (pieces.filter (· != ['.'])).map String.ofList

theorem namesOf_append (pieces more : List (List Char)) :
    namesOf (pieces ++ more) = namesOf pieces ++ namesOf more := by
  rw [namesOf, List.filter_append, List.map_append]
  rfl

namespace Sights

/-- A place with what it shows. -/
def placeAt (v : Sights) (place : Location) : Place :=
  match v place with
  | some .directory => .directory place
  | some (.file content) => .file place content
  | none => .vacant place

/-- The place that the pieces of a path lead to from a directory. -/
def walk (v : Sights) (from_ : Location) : List (List Char) → Place
  | [] => .directory from_
  | piece :: rest =>
    if piece = ['.'] then walk v from_ rest
    else if piece = ['.', '.'] then walk v from_.dropLast rest
    else
      let name := String.ofList piece
      if greatestName < name.utf8ByteSize then .blocked
      else
        match v (from_ ++ [name]) with
        | some .directory => walk v (from_ ++ [name]) rest
        | some (.file content) => if rest.isEmpty then .file (from_ ++ [name]) content else .blocked
        | none => if rest.isEmpty then .vacant (from_ ++ [name]) else .missing

def resolve (v : Sights) (p : Path) : Place :=
  if p.text.isEmpty then .missing
  else if !p.isFollowable then .blocked
  else
    match v.walk p.start p.route with
    | .file place content => if p.endsInSlash then .blocked else .file place content
    | place => place

end Sights

namespace FileTree

variable {t : FileTree}

/-- The directories of a trail have in them what is seen in the tree. -/
def IsTrail (t : FileTree) : Trail → Prop
  | [] => True
  | (name, entries) :: above =>
    (∀ rest, t.sight? (Trail.place ((name, entries) :: above) ++ rest) = sight? entries rest) ∧
      t.IsTrail above

theorem place_cons (name : String) (entries : FileTree) (above : Trail) :
    Trail.place ((name, entries) :: above) = above.place ++ [name] := by
  simp [Trail.place]

theorem sight?_of_isTrail {trail : Trail} (h : t.IsTrail trail) (name : String)
    (rest : Location) : t.sight? (trail.place ++ name :: rest) =
      (((trail.head?.map (·.2)).getD t).lookup name).bind (·.sight? rest) := by
  cases trail with
  | nil => exact sight?_cons t name rest
  | cons last above => exact (h.1 (name :: rest)).trans (sight?_cons _ name rest)

theorem follow_eq_walk {trail : Trail} (h : t.IsTrail trail) (pieces : List (List Char)) :
    t.follow trail pieces = t.sight?.walk trail.place pieces := by
  induction pieces generalizing trail with
  | nil => rfl
  | cons piece rest ih =>
    by_cases hdot : piece = ['.']
    · rw [follow, Sights.walk, if_pos hdot, if_pos hdot, ih h]
    by_cases hup : piece = ['.', '.']
    · rw [follow, Sights.walk, if_neg hdot, if_neg hdot, if_pos hup, if_pos hup]
      cases trail with
      | nil => exact ih h
      | cons last above =>
        rw [place_cons, List.dropLast_concat]
        exact ih h.2
    have hname := sight?_of_isTrail h (String.ofList piece) []
    simp only [follow, Sights.walk, if_neg hdot, if_neg hup]
    split
    case isTrue => rfl
    case isFalse =>
      rw [hname]
      cases hlookup : ((trail.head?.map (·.2)).getD t).lookup (String.ofList piece) with
      | none => rfl
      | some e =>
        cases e with
        | file content => rfl
        | directory entries =>
          have htrail : t.IsTrail ((String.ofList piece, entries) :: trail) := by
            refine ⟨fun below => ?_, h⟩
            rw [place_cons, List.append_assoc, List.singleton_append, sight?_of_isTrail h, hlookup]
            rfl
          rw [← place_cons _ entries]
          exact ih htrail

/-- Where a path leads is told by what is seen. -/
theorem resolve_eq (h : t.IsRooted) (p : Path) : t.resolve p = t.sight?.resolve p := by
  have hworking : t.IsTrail [(workingName, t.below workingName)] :=
    ⟨sight?_cons_eq_below h, trivial⟩
  have hwalk : t.follow (if p.isAbsolute then [] else [(workingName, t.below workingName)])
      p.route = t.sight?.walk p.start p.route := by
    rw [Path.start]
    split
    · exact follow_eq_walk (show t.IsTrail [] from trivial) _
    · exact follow_eq_walk hworking _
  rw [Sights.resolve, ← hwalk]
  rfl

end FileTree

namespace Sights

/-! Walks. -/

/-- The name that a piece of a path leads down by. -/
structure IsName (piece : List Char) : Prop where
  ne_dot : piece ≠ ['.']
  ne_up : piece ≠ ['.', '.']
  short : (String.ofList piece).utf8ByteSize ≤ greatestName

/-- Where the pieces of a path lead to from a directory: through directories, and in the end
to anything at all. -/
inductive Leads (v : Sights) : Location → List (List Char) → Location → Prop
  | here (place : Location) : Leads v place [] place
  | stay {place led : Location} {rest : List (List Char)} :
      Leads v place rest led → Leads v place (['.'] :: rest) led
  | up {place led : Location} {rest : List (List Char)} :
      Leads v place.dropLast rest led → Leads v place (['.', '.'] :: rest) led
  | down {place led : Location} {piece : List Char} {rest : List (List Char)} :
      IsName piece → v (place ++ [String.ofList piece]) = some .directory →
      Leads v (place ++ [String.ofList piece]) rest led → Leads v place (piece :: rest) led
  | last {place : Location} {piece : List Char} : IsName piece →
      v (place ++ [String.ofList piece]) ≠ some .directory →
      Leads v place [piece] (place ++ [String.ofList piece])

variable {v w : Sights} {place led : Location} {pieces more : List (List Char)}

theorem walk_name {piece : List Char} (h : IsName piece) (v : Sights) (place : Location)
    (rest : List (List Char)) :
    v.walk place (piece :: rest) =
      match v (place ++ [String.ofList piece]) with
      | some .directory => v.walk (place ++ [String.ofList piece]) rest
      | some (.file content) =>
        if rest.isEmpty then .file (place ++ [String.ofList piece]) content else .blocked
      | none => if rest.isEmpty then .vacant (place ++ [String.ofList piece]) else .missing := by
  rw [walk, if_neg h.ne_dot, if_neg h.ne_up]
  exact if_neg (Nat.not_lt.2 h.short)

theorem leads_of_walk (h : (v.walk place pieces).location? = some led) :
    v.Leads place pieces led := by
  induction pieces generalizing place with
  | nil =>
    obtain rfl : place = led := Option.some.inj h
    exact .here place
  | cons piece rest ih =>
    by_cases hdot : piece = ['.']
    · rw [walk, if_pos hdot] at h
      exact hdot ▸ .stay (ih h)
    by_cases hup : piece = ['.', '.']
    · rw [walk, if_neg hdot, if_pos hup] at h
      exact hup ▸ .up (ih h)
    by_cases hlong : greatestName < (String.ofList piece).utf8ByteSize
    · rw [walk, if_neg hdot, if_neg hup] at h
      simp only [if_pos hlong] at h
      cases h
    have hname : IsName piece := ⟨hdot, hup, Nat.not_lt.1 hlong⟩
    rw [walk_name hname] at h
    cases hsight : v (place ++ [String.ofList piece]) with
    | none =>
      rw [hsight] at h
      cases rest with
      | nil =>
        obtain rfl := Option.some.inj h
        exact .last hname (by simp [hsight])
      | cons next more => cases h
    | some s =>
      rw [hsight] at h
      cases s with
      | directory => exact .down hname hsight (ih h)
      | file content =>
        cases rest with
        | nil =>
          obtain rfl := Option.some.inj h
          exact .last hname (by simp [hsight])
        | cons next more => cases h

/-- A directory is led up to from one. -/
theorem IsTree.dropLast (hv : v.IsTree) (h : v place = some .directory) :
    v place.dropLast = some .directory := by
  cases place using List.reverseRecOn with
  | nil => exact hv.outermost
  | append_singleton above name =>
    rw [List.dropLast_concat]
    exact hv.above above name (by simp [h])

theorem Leads.walk_eq (hv : v.IsTree) (h : v.Leads place pieces led)
    (hplace : v place = some .directory) : v.walk place pieces = v.placeAt led := by
  induction h with
  | here place => rw [walk, placeAt, hplace]
  | stay _ ih => exact ih hplace
  | up _ ih => exact ih (hv.dropLast hplace)
  | down hname hsight _ ih =>
    rw [walk_name hname, hsight]
    exact ih hsight
  | last hname hsight =>
    rw [walk_name hname, placeAt]
    split
    case h_1 hdirectory => exact absurd hdirectory hsight
    case h_2 => rfl
    case h_3 => rfl

theorem location?_placeAt (v : Sights) (place : Location) :
    (v.placeAt place).location? = some place := by
  rw [placeAt]
  split <;> rfl

theorem Leads.unique (hv : v.IsTree) {other : Location} (h : v.Leads place pieces led)
    (h' : v.Leads place pieces other) (hplace : v place = some .directory) : led = other := by
  have heq := congrArg Place.location? ((h.walk_eq hv hplace).symm.trans (h'.walk_eq hv hplace))
  rw [location?_placeAt, location?_placeAt] at heq
  exact Option.some.inj heq

/-- A walk goes on from a directory that it gets to. -/
theorem Leads.append {between : Location} (h : v.Leads place pieces between)
    (hbetween : v between = some .directory) (hmore : v.Leads between more led) :
    v.Leads place (pieces ++ more) led := by
  induction h with
  | here place => exact hmore
  | stay _ ih => exact .stay (ih hbetween hmore)
  | up _ ih => exact .up (ih hbetween hmore)
  | down hname hsight _ ih => exact .down hname hsight (ih hbetween hmore)
  | last hname hsight => exact absurd hbetween hsight

/-- The beginning of a walk gets to a directory. -/
theorem Leads.split (hv : v.IsTree) (hplace : v place = some .directory) (hmore : more ≠ [])
    (h : v.Leads place (pieces ++ more) led) :
    ∃ between, v.Leads place pieces between ∧ v between = some .directory ∧
      v.Leads between more led := by
  induction pieces generalizing place with
  | nil => exact ⟨place, .here place, hplace, h⟩
  | cons piece rest ih =>
    rw [List.cons_append] at h
    generalize hall : rest ++ more = all at h
    cases h with
    | stay hrest =>
      obtain ⟨between, hfirst, hdirectory, hsecond⟩ := ih hplace (hall ▸ hrest)
      exact ⟨between, .stay hfirst, hdirectory, hsecond⟩
    | up hrest =>
      obtain ⟨between, hfirst, hdirectory, hsecond⟩ := ih (hv.dropLast hplace) (hall ▸ hrest)
      exact ⟨between, .up hfirst, hdirectory, hsecond⟩
    | down hname hsight hrest =>
      obtain ⟨between, hfirst, hdirectory, hsecond⟩ := ih hsight (hall ▸ hrest)
      exact ⟨between, .down hname hsight hfirst, hdirectory, hsecond⟩
    | last hname hsight => exact absurd (List.append_eq_nil_iff.1 hall).2 hmore

/-- While directories stay, a walk leads where it led. -/
theorem Leads.keep (hkeep : v.Keeps w) (h : v.Leads place pieces led) :
    w.Leads place pieces led := by
  induction h with
  | here place => exact .here place
  | stay _ ih => exact .stay ih
  | up _ ih => exact .up ih
  | down hname hsight _ ih => exact .down hname (hkeep _ hsight) ih
  | @last place piece hname _ =>
    by_cases hnow : w (place ++ [String.ofList piece]) = some .directory
    · exact .down hname hnow (.here _)
    · exact .last hname hnow

/-- The beginning of a walk to what is there gets to what is there. -/
theorem Leads.beginning (hv : v.IsTree) (hplace : v place = some .directory)
    (h : v.Leads place (pieces ++ more) led) (hled : v led ≠ none) :
    ∃ between, v.Leads place pieces between ∧ v between ≠ none := by
  by_cases hmore : more = []
  · rw [hmore, List.append_nil] at h
    exact ⟨led, h, hled⟩
  · obtain ⟨between, hleads, hdirectory, -⟩ := h.split hv hplace hmore
    exact ⟨between, hleads, by simp [hdirectory]⟩

/-- A walk takes its names from its pieces. -/
theorem Leads.exists_of_mem {name : String} (h : v.Leads place pieces led) (hname : name ∈ led) :
    name ∈ place ∨ ∃ piece ∈ pieces, piece ≠ ['.'] ∧ String.ofList piece = name := by
  have hstep {piece : List Char} {rest : List (List Char)}
      (hrest : ∃ p ∈ rest, p ≠ ['.'] ∧ String.ofList p = name) :
      ∃ p ∈ piece :: rest, p ≠ ['.'] ∧ String.ofList p = name := by
    obtain ⟨p, hp, hlast⟩ := hrest
    exact ⟨p, List.mem_cons_of_mem _ hp, hlast⟩
  have hnext {piece : List Char} {rest : List (List Char)} {place : Location} (hp : IsName piece)
      (hmem : name ∈ place ++ [String.ofList piece]) :
      name ∈ place ∨ ∃ p ∈ piece :: rest, p ≠ ['.'] ∧ String.ofList p = name := by
    rcases List.mem_append.1 hmem with hplace | hlast
    · exact .inl hplace
    · exact .inr ⟨piece, List.mem_cons_self, hp.ne_dot, (List.mem_singleton.1 hlast).symm⟩
  induction h with
  | here place => exact .inl hname
  | stay _ ih => exact (ih hname).imp_right hstep
  | up _ ih => exact (ih hname).imp (List.dropLast_subset _ ·) hstep
  | down hp _ _ ih =>
    rcases ih hname with hmem | hrest
    · exact hnext hp hmem
    · exact .inr (hstep hrest)
  | last hp _ => exact hnext hp hname

/-- A walk down names. -/
theorem Leads.eq_append (hnames : ['.', '.'] ∉ pieces) (h : v.Leads place pieces led) :
    led = place ++ namesOf pieces := by
  induction h with
  | here place => simp [namesOf]
  | stay _ ih =>
    rw [ih fun hmem => hnames (List.mem_cons_of_mem _ hmem)]
    simp [namesOf]
  | up _ _ => exact absurd List.mem_cons_self hnames
  | down hname _ _ ih =>
    rw [ih fun hmem => hnames (List.mem_cons_of_mem _ hmem)]
    simp [namesOf, hname.ne_dot]
  | last hname _ => simp [namesOf, hname.ne_dot]

/-- A walk down names leads to what is there, once that is there. -/
theorem Leads.down_to (hv : v.IsTree) (hnames : ['.', '.'] ∉ pieces)
    (h : w.Leads place pieces led) (hled : v led ≠ none) (hsame : v led = w led) :
    v.Leads place pieces led := by
  induction h with
  | here place => exact .here place
  | stay _ ih => exact .stay (ih (fun hmem => hnames (List.mem_cons_of_mem _ hmem)) hled hsame)
  | up _ _ => exact absurd List.mem_cons_self hnames
  | @down place led piece rest hname hsight hrest ih =>
    have hrestNames : ['.', '.'] ∉ rest := fun hmem => hnames (List.mem_cons_of_mem _ hmem)
    refine .down hname ?_ (ih hrestNames hled hsame)
    rw [hrest.eq_append hrestNames] at hled hsame
    by_cases hnil : namesOf rest = []
    · rw [hnil, List.append_nil, hsight] at hsame
      exact hsame
    · exact hv.above_append hnil hled
  | last hname hsight => exact .last hname (hsame ▸ hsight)

/-- To what is no directory a walk gets from one. -/
theorem Leads.exists_parent (hv : v.IsTree) (h : v.Leads place pieces led)
    (hplace : v place = some .directory) (hled : v led ≠ some .directory) :
    ∃ parent name, led = parent ++ [name] ∧ v parent = some .directory := by
  induction h with
  | here place => exact absurd hplace hled
  | stay _ ih => exact ih hplace hled
  | up _ ih => exact ih (hv.dropLast hplace) hled
  | down _ hsight _ ih => exact ih hsight hled
  | last _ _ => exact ⟨_, _, rfl, hplace⟩

/-! Walks beside a place. -/

section Beside

variable {above : Location} {name : String}

/-- By another name nothing gets below a place. -/
theorem not_prefix_append {other : String} (hother : other ≠ name)
    (h : ¬ above ++ [name] <+: place) : ¬ above ++ [name] <+: place ++ [other] := by
  intro hunder
  rcases List.prefix_concat_iff.1 hunder with heq | hshort
  · exact hother (List.cons.inj (List.append_inj' heq rfl).2).1.symm
  · exact h hshort

/-- A walk that does not take a name does not see what is at and below the place with it. -/
theorem Leads.beside (hsame : ∀ other, ¬ above ++ [name] <+: other → w other = v other)
    (hpieces : ∀ piece ∈ pieces, String.ofList piece ≠ name)
    (hplace : ¬ above ++ [name] <+: place) (h : v.Leads place pieces led) :
    w.Leads place pieces led ∧ ¬ above ++ [name] <+: led := by
  induction h with
  | here place => exact ⟨.here place, hplace⟩
  | stay _ ih =>
    obtain ⟨hleads, hled⟩ := ih (fun p hp => hpieces p (List.mem_cons_of_mem _ hp)) hplace
    exact ⟨.stay hleads, hled⟩
  | up _ ih =>
    obtain ⟨hleads, hled⟩ := ih (fun p hp => hpieces p (List.mem_cons_of_mem _ hp))
      fun hunder => hplace (hunder.trans (List.dropLast_prefix _))
    exact ⟨.up hleads, hled⟩
  | down hname hsight _ ih =>
    have hnext := not_prefix_append (hpieces _ List.mem_cons_self) hplace
    obtain ⟨hleads, hled⟩ := ih (fun p hp => hpieces p (List.mem_cons_of_mem _ hp)) hnext
    exact ⟨.down hname ((hsame _ hnext).trans hsight) hleads, hled⟩
  | last hname hsight =>
    have hnext := not_prefix_append (hpieces _ List.mem_cons_self) hplace
    exact ⟨.last hname (by rwa [hsame _ hnext]), hnext⟩

end Beside

/-! Where paths lead. -/

variable {p : Path} {content : ByteArray}

theorem IsTree.start (hv : v.IsTree) (p : Path) : v p.start = some .directory := by
  rw [Path.start]
  split
  · exact hv.outermost
  · exact hv.working

theorem resolve_of_walk (hopen : p.IsOpen) :
    v.resolve p =
      match v.walk p.start p.route with
      | .file place content => if p.endsInSlash then .blocked else .file place content
      | place => place := by
  rw [resolve, if_neg (by simp [hopen.1]), if_neg (by simp [hopen.2])]

theorem isOpen_of_resolve (h : (v.resolve p).location? = some led) : p.IsOpen := by
  unfold resolve at h
  by_cases hempty : p.text.isEmpty = true
  · rw [if_pos hempty] at h
    cases h
  by_cases hfollow : (!p.isFollowable) = true
  · rw [if_neg hempty, if_pos hfollow] at h
    cases h
  exact ⟨by simpa using hempty, by simpa using hfollow⟩

/-- Where a path leads, its walk does. -/
theorem leads_of_resolve (h : (v.resolve p).location? = some led) :
    v.Leads p.start p.route led := by
  rw [resolve_of_walk (isOpen_of_resolve h)] at h
  apply leads_of_walk
  split at h
  case h_1 place content hfile =>
    split at h
    case isTrue => cases h
    case isFalse => rwa [hfile]
  case h_2 => exact h

/-- What a path that leads to a place leads to. A file has no slash behind it. -/
def placeFor (v : Sights) (p : Path) (place : Location) : Place :=
  match v.placeAt place with
  | .file place content => if p.endsInSlash then .blocked else .file place content
  | place => place

theorem placeFor_eq_directory_iff {other : Location} :
    v.placeFor p place = .directory other ↔ place = other ∧ v place = some .directory := by
  unfold placeFor placeAt
  rcases v place with _ | ⟨_ | _⟩ <;> cases p.endsInSlash <;> simp

theorem placeFor_eq_file_iff {other : Location} :
    v.placeFor p place = .file other content ↔
      place = other ∧ v place = some (.file content) ∧ p.endsInSlash = false := by
  unfold placeFor placeAt
  rcases v place with _ | ⟨_ | _⟩ <;> cases p.endsInSlash <;> simp

theorem placeFor_eq_vacant_iff {other : Location} :
    v.placeFor p place = .vacant other ↔ place = other ∧ v place = none := by
  unfold placeFor placeAt
  rcases v place with _ | ⟨_ | _⟩ <;> cases p.endsInSlash <;> simp

theorem resolve_of_leads (hv : v.IsTree) (hopen : p.IsOpen) (h : v.Leads p.start p.route led) :
    v.resolve p = v.placeFor p led := by
  rw [resolve_of_walk hopen, h.walk_eq hv (hv.start p)]
  rfl

theorem leads_of_resolve_eq {found : Place} (h : v.resolve p = found)
    (hled : found.location? = some led) : p.IsOpen ∧ v.Leads p.start p.route led := by
  subst h
  exact ⟨isOpen_of_resolve hled, leads_of_resolve hled⟩

theorem resolve_eq_directory_iff (hv : v.IsTree) :
    v.resolve p = .directory led ↔
      p.IsOpen ∧ v.Leads p.start p.route led ∧ v led = some .directory := by
  constructor
  · intro h
    obtain ⟨hopen, hleads⟩ := leads_of_resolve_eq h rfl
    rw [resolve_of_leads hv hopen hleads, placeFor_eq_directory_iff] at h
    exact ⟨hopen, hleads, h.2⟩
  · rintro ⟨hopen, hleads, hsight⟩
    rw [resolve_of_leads hv hopen hleads, placeFor_eq_directory_iff]
    exact ⟨rfl, hsight⟩

theorem resolve_eq_file_iff (hv : v.IsTree) :
    v.resolve p = .file led content ↔
      p.IsOpen ∧ v.Leads p.start p.route led ∧ v led = some (.file content) ∧
        p.endsInSlash = false := by
  constructor
  · intro h
    obtain ⟨hopen, hleads⟩ := leads_of_resolve_eq h rfl
    rw [resolve_of_leads hv hopen hleads, placeFor_eq_file_iff] at h
    exact ⟨hopen, hleads, h.2⟩
  · rintro ⟨hopen, hleads, hfile⟩
    rw [resolve_of_leads hv hopen hleads, placeFor_eq_file_iff]
    exact ⟨rfl, hfile⟩

theorem resolve_eq_vacant_iff (hv : v.IsTree) :
    v.resolve p = .vacant led ↔ p.IsOpen ∧ v.Leads p.start p.route led ∧ v led = none := by
  constructor
  · intro h
    obtain ⟨hopen, hleads⟩ := leads_of_resolve_eq h rfl
    rw [resolve_of_leads hv hopen hleads, placeFor_eq_vacant_iff] at h
    exact ⟨hopen, hleads, h.2⟩
  · rintro ⟨hopen, hleads, hsight⟩
    rw [resolve_of_leads hv hopen hleads, placeFor_eq_vacant_iff]
    exact ⟨rfl, hsight⟩

/-- There is something where a path leads. -/
def IsPresent (v : Sights) (p : Path) : Prop :=
  ∃ place, (v.resolve p).location? = some place ∧ v place ≠ none

def IsDirectory (v : Sights) (p : Path) : Prop := ∃ place, v.resolve p = .directory place

/-- There is something where the pieces of a path lead. -/
def Reaches (v : Sights) (p : Path) : Prop :=
  ∃ place, v.Leads p.start p.route place ∧ v place ≠ none

theorem IsPresent.reaches (h : v.IsPresent p) : v.Reaches p := by
  obtain ⟨place, hplace, hthere⟩ := h
  exact ⟨place, leads_of_resolve hplace, hthere⟩

theorem isDirectory_of_leads (hv : v.IsTree) (hopen : p.IsOpen)
    (hleads : v.Leads p.start p.route led) (hled : v led = some .directory) : v.IsDirectory p :=
  ⟨led, (resolve_eq_directory_iff hv).2 ⟨hopen, hleads, hled⟩⟩

theorem IsDirectory.isPresent (hv : v.IsTree) (h : v.IsDirectory p) : v.IsPresent p := by
  obtain ⟨place, hplace⟩ := h
  have hsight := ((resolve_eq_directory_iff hv).1 hplace).2.2
  exact ⟨place, by rw [hplace]; rfl, by simp [hsight]⟩

/-- What is there stays there where a path leads to the same. -/
theorem IsPresent.of_leads (hv : v.IsTree) (hw : w.IsTree) (h : v.IsPresent p)
    (hsame : ∀ led, v.Leads p.start p.route led → v led ≠ none →
      w.Leads p.start p.route led ∧ w led = v led) : w.IsPresent p := by
  obtain ⟨led, hled, hthere⟩ := h
  have hopen := isOpen_of_resolve hled
  have hleads := leads_of_resolve hled
  obtain ⟨hleadsNow, heq⟩ := hsame led hleads hthere
  refine ⟨led, ?_, heq ▸ hthere⟩
  rw [resolve_of_leads hv hopen hleads, placeFor, placeAt] at hled
  rwa [resolve_of_leads hw hopen hleadsNow, placeFor, placeAt, heq]

theorem IsDirectory.keep (hv : v.IsTree) (hw : w.IsTree) (hkeep : v.Keeps w)
    (h : v.IsDirectory p) : w.IsDirectory p := by
  obtain ⟨place, hplace⟩ := h
  obtain ⟨hopen, hleads, hsight⟩ := (resolve_eq_directory_iff hv).1 hplace
  exact isDirectory_of_leads hw hopen (hleads.keep hkeep) (hkeep place hsight)

end Sights

end RegisterMap
