import RegisterMap.Proofs.Html.Assets
import RegisterMap.Proofs.Html.Index

/-!
What a visit of some elements adds to a reference: their entries behind those that are
there, their numbers to the entry of their parent, and their pages. The visit of the
top adds those of the whole walk.
-/

namespace RegisterMap.Html

open ExportM

/-! Entries without their fields. -/

/-- An entry without fields, which are put in while the element is visited. -/
def IndexEntry.bare (entry : IndexEntry) : IndexEntry := { entry with fields := none }

def State.entries (s : State) : List IndexEntry := s.index.toList.map IndexEntry.bare

/-- The entries of a list when some numbers join the children of a parent. -/
def adopt (parent : Option Nat) (ids : List Nat) (entries : List IndexEntry) : List IndexEntry :=
  match parent with
  | none => entries
  | some p => entries.modify p fun entry =>
      { entry with children := entry.children ++ ids.toArray }

theorem map_modify {α β : Type} (items : List α) (i : Nat) {r : α → β} {f : α → α} {g : β → β}
    (h : ∀ a, r (f a) = g (r a)) :
    (items.modify i f).map r = (items.map r).modify i g := by
  apply List.ext_getElem?
  intro j
  rw [List.getElem?_map, List.getElem?_modify, List.getElem?_modify, List.getElem?_map]
  cases items[j]? with
  | none => rfl
  | some a => by_cases hj : i = j <;> simp [hj, h]

theorem modify_append_left {entries : List IndexEntry} {i : Nat} (h : i < entries.length)
    (more : List IndexEntry) (f : IndexEntry → IndexEntry) :
    (entries ++ more).modify i f = entries.modify i f ++ more := by
  induction entries generalizing i with
  | nil => cases h
  | cons entry rest ih =>
    cases i with
    | zero => rfl
    | succ i =>
      rw [List.cons_append, List.modify_succ_cons, List.modify_succ_cons,
        ih (Nat.lt_of_succ_lt_succ h), List.cons_append]

theorem modify_last {α : Type} (items : List α) (item : α) {i : Nat} (h : i = items.length)
    (f : α → α) : (items ++ [item]).modify i f = items ++ [f item] := by
  subst h
  induction items with
  | nil => rfl
  | cons other rest ih =>
    rw [List.cons_append, List.length_cons, List.modify_succ_cons, ih, List.cons_append]

theorem adopt_nil (parent : Option Nat) (entries : List IndexEntry) :
    adopt parent [] entries = entries := by
  cases parent with
  | none => rfl
  | some p =>
    have hsame : (fun entry : IndexEntry =>
        { entry with children := entry.children ++ ([] : List Nat).toArray }) = id := by
      funext entry
      simp
    rw [adopt, hsame, List.modify_id]

theorem adopt_adopt (parent : Option Nat) (ids more : List Nat) (entries : List IndexEntry) :
    adopt parent more (adopt parent ids entries) = adopt parent (ids ++ more) entries := by
  cases parent with
  | none => rfl
  | some p => simp [adopt, List.modify_modify_eq, Function.comp_def]

@[simp]
theorem length_adopt (parent : Option Nat) (ids : List Nat) (entries : List IndexEntry) :
    (adopt parent ids entries).length = entries.length := by
  cases parent with
  | none => rfl
  | some p => simp [adopt]

theorem adopt_append {parent : Option Nat} {entries : List IndexEntry}
    (h : ∀ p, parent = some p → p < entries.length) (ids : List Nat) (more : List IndexEntry) :
    adopt parent ids (entries ++ more) = adopt parent ids entries ++ more := by
  cases parent with
  | none => rfl
  | some p => exact modify_append_left (h p rfl) more _

/-! Steps that say more about an element that is there. -/

/-- Two sessions with the same entries, pages and numbers. -/
structure SameTree (s t : Session State) : Prop where
  entries_eq : t.state.entries = s.state.entries
  pages_eq : t.state.pages = s.state.pages
  parents_eq : t.state.parents = s.state.parents
  nextId_eq : t.nextId = s.nextId

theorem SameTree.trans {s t u : Session State} (h : SameTree s t) (h' : SameTree t u) :
    SameTree s u :=
  ⟨h'.entries_eq.trans h.entries_eq, h'.pages_eq.trans h.pages_eq,
    h'.parents_eq.trans h.parents_eq, h'.nextId_eq.trans h.nextId_eq⟩

/-- A step that leaves the entries, the pages and the numbers as they are. -/
def LeavesTree {α : Type} (step : HtmlM α) : Prop := ∀ s a t, Yields step s a t → SameTree s t

namespace LeavesTree

variable {α β : Type}

theorem pure (a : α) : LeavesTree (Pure.pure a) := by
  intro s b t h
  obtain ⟨_, rfl⟩ := yields_pure.1 h
  exact ⟨rfl, rfl, rfl, rfl⟩

theorem bind {step : HtmlM α} {next : α → HtmlM β} (hstep : LeavesTree step)
    (hnext : ∀ a, LeavesTree (next a)) : LeavesTree (step >>= next) := by
  intro s b u h
  obtain ⟨a, t, hfirst, hrest⟩ := yields_bind.1 h
  exact (hstep s a t hfirst).trans (hnext a t b u hrest)

theorem built : LeavesTree (ExportM.built : HtmlM State) := by
  intro s a t h
  obtain ⟨_, rfl⟩ := yields_built.1 h
  exact ⟨rfl, rfl, rfl, rfl⟩

theorem build {f : State → State} (hentries : ∀ s, (f s).entries = s.entries)
    (hpages : ∀ s, (f s).pages = s.pages) (hparents : ∀ s, (f s).parents = s.parents) :
    LeavesTree (ExportM.build f) := by
  intro s _ t h
  obtain rfl := yields_build.1 h
  exact ⟨hentries s.state, hpages s.state, hparents s.state, rfl⟩

theorem checkRegisterArray (e : Element) :
    LeavesTree (RegisterMap.checkRegisterArray e : HtmlM StrideCheck) := by
  intro s _ t h
  obtain ⟨_, _, rfl⟩ := yields_checkRegisterArray.1 h
  exact ⟨by simp, by simp, by simp, by simp⟩

theorem mapM {items : List α} {step : α → HtmlM β} (h : ∀ a, LeavesTree (step a)) :
    LeavesTree (items.mapM step) := by
  induction items with
  | nil => exact pure []
  | cons item rest ih =>
    rw [List.mapM_cons]
    exact (h item).bind fun _ => ih.bind fun _ => pure _

theorem forM {items : List α} {step : α → HtmlM Unit} (h : ∀ a, LeavesTree (step a)) :
    LeavesTree (forM items step) := by
  induction items with
  | nil => exact pure ()
  | cons item rest ih =>
    rw [List.forM_cons]
    exact (h item).bind fun _ => ih

end LeavesTree

variable {setup : Setup}

/-- A blank description is passed over, and another one is bundled into the assets. -/
theorem describe_cases {text : Option String} {origin : Option Path} {s t : Session State}
    {desc : Option String} (h : Yields (describe setup text origin) s desc t) :
    (text.filter (fun t => !Text.allBlank t.toList) = none ∧ desc = none ∧ t = s) ∨
      ∃ given html assets, text.filter (fun t => !Text.allBlank t.toList) = some given ∧
        bundleImages setup.view origin
            (promoteHeadings setup.options.headingOffset (setup.renderer.render given))
            s.state.assets = .ok (html, assets) ∧
          desc = some html ∧ t = { s with state := { s.state with assets } } := by
  unfold describe at h
  cases htext : text.filter fun t => !Text.allBlank t.toList with
  | none =>
    rw [htext] at h
    obtain ⟨rfl, rfl⟩ := yields_pure.1 h
    exact Or.inl ⟨rfl, rfl, rfl⟩
  | some given =>
    rw [htext] at h
    obtain ⟨built, t₁, hbuilt, h⟩ := yields_bind.1 h
    obtain ⟨rfl, rfl⟩ := yields_built.1 hbuilt
    cases hbundle : bundleImages setup.view origin
        (promoteHeadings setup.options.headingOffset (setup.renderer.render given))
        s.state.assets with
    | error e =>
      rw [hbundle] at h
      exact absurd h not_yields_fail
    | ok bundled =>
      obtain ⟨html, assets⟩ := bundled
      rw [hbundle] at h
      obtain ⟨_, t₂, hkeep, h⟩ := yields_bind.1 h
      obtain rfl := yields_build.1 hkeep
      obtain ⟨rfl, rfl⟩ := yields_pure.1 h
      exact Or.inr ⟨given, html, assets, rfl, hbundle, rfl, rfl⟩

theorem leavesTree_describe (text : Option String) (origin : Option Path) :
    LeavesTree (describe setup text origin) := by
  intro s desc t h
  obtain ⟨_, _, rfl⟩ | ⟨_, _, _, _, _, _, rfl⟩ := describe_cases h
  · exact ⟨rfl, rfl, rfl, rfl⟩
  · exact ⟨rfl, rfl, rfl, rfl⟩

theorem State.entries_addField (s : State) (field : IndexField) :
    (s.addField field).entries = s.entries := by
  unfold State.addField
  cases s.parents.head? with
  | none => rfl
  | some id =>
    simp only [State.entries, Array.toList_modify]
    have hbare := map_modify s.index.toList id (r := IndexEntry.bare)
      (f := fun entry => { entry with fields := entry.fields.map (· ++ [field]) })
      (g := fun entry => entry) fun _ => by rfl
    rw [hbare]
    exact List.modify_id id _

theorem leavesTree_visitField (f : Field) (access : AccessCode) :
    LeavesTree (visitField setup f access) :=
  .bind .built fun _ => .bind (leavesTree_describe _ _) fun _ =>
    .bind (.mapM fun _ => .bind (leavesTree_describe _ _) fun _ => .pure _) fun _ =>
      .build (fun s => s.entries_addField _) (fun s => by unfold State.addField; split <;> rfl)
        fun s => by unfold State.addField; split <;> rfl

/-! Visits. -/

/-- A session in which as many numbers are taken as there are entries, that of the
innermost node being visited among them. -/
structure IsNumbered (s : Session State) : Prop where
  nextId_eq : s.nextId = s.state.entries.length
  parent_lt : ∀ p, s.state.parents.head? = some p → p < s.nextId

/-- What a session has more than another, when some elements have been visited. -/
def Documented (options : WalkOptions) (es : List Element) (s t : Session State) : Prop :=
  ∃ entries pages,
    Documents options s.state.parents.head? s.nextId es entries pages ∧
      t.state.entries =
        adopt s.state.parents.head? (numbers options s.nextId es) s.state.entries ++ entries ∧
      t.state.pages.toList = s.state.pages.toList ++ pages ∧
      t.state.parents = s.state.parents ∧ t.nextId = s.nextId + entries.length

/-- A step that documents some elements. -/
def Visits (options : WalkOptions) (step : HtmlM Unit) (es : List Element) : Prop :=
  ∀ s u t, Yields step s u t → IsNumbered s → Documented options es s t

variable {options : WalkOptions} {s t u : Session State} {es es' : List Element}

theorem Documented.isNumbered (h : Documented options es s t) (hs : IsNumbered s) :
    IsNumbered t := by
  obtain ⟨entries, pages, _, hentries, _, hparents, hnext⟩ := h
  refine ⟨?_, fun p hp => ?_⟩
  · rw [hentries, List.length_append, length_adopt, hnext, hs.nextId_eq]
  · have hlt := hs.parent_lt p (hparents ▸ hp)
    omega

theorem SameTree.documented (h : SameTree s t) : Documented options [] s t := by
  refine ⟨[], [], .nil _ _, ?_, ?_, h.parents_eq, h.nextId_eq⟩
  · rw [h.entries_eq, numbers, adopt_nil, List.append_nil]
  · rw [h.pages_eq, List.append_nil]

theorem Documented.append (h : Documented options es s t) (hs : IsNumbered s)
    (h' : Documented options es' t u) : Documented options (es ++ es') s u := by
  obtain ⟨entries, pages, hdocuments, hentries, hpages, hparents, hnext⟩ := h
  obtain ⟨entries', pages', hdocuments', hentries', hpages', hparents', hnext'⟩ := h'
  rw [hparents, hnext] at hdocuments'
  have hbound : ∀ p, s.state.parents.head? = some p →
      p < (adopt s.state.parents.head? (numbers options s.nextId es) s.state.entries).length := by
    intro p hp
    rw [length_adopt, ← hs.nextId_eq]
    exact hs.parent_lt p hp
  refine ⟨entries ++ entries', pages ++ pages', hdocuments.append hdocuments', ?_, ?_,
    hparents'.trans hparents, ?_⟩
  · rw [hentries', hparents, hnext, hentries, adopt_append hbound, adopt_adopt, numbers_append,
      hdocuments.length_eq, List.append_assoc]
  · rw [hpages', hpages, List.append_assoc]
  · rw [hnext', hnext, List.length_append, Nat.add_assoc]

theorem LeavesTree.visits {step : HtmlM Unit} (h : LeavesTree step) : Visits options step [] :=
  fun s u t hstep _ => (h s u t hstep).documented

theorem Visits.after {α : Type} {first : HtmlM α} {rest : α → HtmlM Unit}
    (hfirst : LeavesTree first) (hrest : ∀ a, Visits options (rest a) es) :
    Visits options (first >>= rest) es := by
  intro s _ u h hs
  obtain ⟨a, t, hstep, hvisit⟩ := yields_bind.1 h
  have hsame := hfirst s a t hstep
  have ht : IsNumbered t := by
    refine ⟨?_, fun p hp => ?_⟩
    · rw [hsame.nextId_eq, hsame.entries_eq, hs.nextId_eq]
    · rw [hsame.nextId_eq]
      exact hs.parent_lt p (hsame.parents_eq ▸ hp)
  exact hsame.documented.append hs (hrest a t () u hvisit ht)

theorem visits_forM {step : Element → HtmlM Unit} (h : ∀ e ∈ es, Visits options (step e) [e]) :
    Visits options (forM es step) es := by
  induction es with
  | nil => exact (LeavesTree.pure ()).visits
  | cons e rest ih =>
    intro s _ u hsteps hs
    rw [List.forM_cons] at hsteps
    obtain ⟨_, t, hfirst, hrest⟩ := yields_bind.1 hsteps
    have hdone := h e List.mem_cons_self s () t hfirst hs
    have hmore := ih (fun c hc => h c (List.mem_cons_of_mem e hc)) t () u hrest
      (hdone.isNumbered hs)
    exact hdone.append hs hmore

theorem State.entries_enter (options : WalkOptions) (s : State) (id : Nat) (e : Element)
    (size : Nat) :
    (s.enter id e size).entries =
      adopt s.parents.head? [id] s.entries ++
        [{ entryOf options s.parents.head? id e size with children := #[] }] := by
  unfold State.enter State.entries
  cases s.parents.head? with
  | none => simp [adopt, entryOf, IndexEntry.bare]
  | some p =>
    have hbare := map_modify s.index.toList p (r := IndexEntry.bare)
      (f := fun above => { above with children := above.children.push id })
      (g := fun above => { above with children := above.children ++ [id].toArray })
      fun _ => by simp [IndexEntry.bare]
    simp only [Array.toList_push, Array.toList_modify, List.map_append, hbare, adopt]
    rfl

/-- The children of a node in the index do not depend on fields. -/
theorem State.children_eq (s : State) (id : Nat) :
    s.index[id]?.map (·.children) = s.entries[id]?.map (·.children) := by
  rw [State.entries, List.getElem?_map, Array.getElem?_toList, Option.map_map]
  rfl

/-- A session when an element has been entered and what is inside comes next. -/
def opened (s : Session State) (e : Element) (size : Nat) (source : Option Path) : Session State :=
  { s with
    nextId := s.nextId + 1
    state :=
      { s.state.enter s.nextId e size with
        parents := s.nextId :: s.state.parents, sources := source :: s.state.sources } }

theorem entries_opened (options : WalkOptions) (s : Session State) (e : Element) (size : Nat)
    (source : Option Path) :
    (opened s e size source).state.entries =
      adopt s.state.parents.head? [s.nextId] s.state.entries ++
        [{ entryOf options s.state.parents.head? s.nextId e size with children := #[] }] :=
  s.state.entries_enter options s.nextId e size

theorem isNumbered_opened (hs : IsNumbered s) (e : Element) (size : Nat) (source : Option Path) :
    IsNumbered (opened s e size source) := by
  refine ⟨?_, fun p hp => ?_⟩
  · rw [entries_opened {}, List.length_append, length_adopt, ← hs.nextId_eq]
    rfl
  · cases hp
    exact Nat.lt_succ_self s.nextId

/-- When all inside an element has been visited, its entry names its children. -/
theorem Documented.inside (hs : IsNumbered s) {e : Element} {size : Nat} {source : Option Path}
    (h : Documented options (e.children options) (opened s e size source) t) :
    ∃ inner pages,
      Documents options (some s.nextId) (s.nextId + 1) (e.children options) inner pages ∧
        t.state.entries = adopt s.state.parents.head? [s.nextId] s.state.entries ++
          entryOf options s.state.parents.head? s.nextId e size :: inner ∧
        t.state.pages.toList = s.state.pages.toList ++ pages ∧
        t.state.parents = s.nextId :: s.state.parents ∧
        t.nextId = s.nextId + 1 + inner.length := by
  obtain ⟨inner, pages, hdocuments, hentries, hpages, hparents, hnext⟩ := h
  refine ⟨inner, pages, hdocuments, ?_, hpages, hparents, hnext⟩
  have hplace : s.nextId =
      (adopt s.state.parents.head? [s.nextId] s.state.entries).length := by
    rw [length_adopt, hs.nextId_eq]
  rw [hentries, entries_opened options]
  change List.modify _ s.nextId _ ++ inner = _
  rw [modify_last _ _ hplace, List.append_assoc]
  simp [entryOf, opened]

/-- What is done about an element when all inside it has been visited. -/
def leaveNode (setup : Setup) (e : Element) (id size : Nat) (source : Option Path) :
    HtmlM Unit := do
  .build fun s => { s with parents := s.parents.tail, sources := s.sources.tail }
  let desc ← describe setup e.node.desc? source
  let s ← .built
  let page := match e.node.kind with
    | .reg => registerPage e size desc s.fieldRows.toList
    | .mem => memoryPage e size desc
    | .addrmap | .regfile =>
      containerPage e size desc
        (childRows (e.children (walkOptions setup.options))
          ((s.index[id]?.map (·.children)).getD #[]))
  .build fun s => { s with pages := s.pages.push (id, Markup.renderAll page) }
  if e.node.kind = .reg then .build fun s => { s with fieldRows := #[] }

theorem yields_visitNode {e : Element} {inside : HtmlM Unit} {a : Unit}
    (h : Yields (visitNode setup e inside) s a u) :
    ∃ size t, e.node.size? = some size ∧
      Yields inside (opened s e size (e.node.source.or s.state.source)) () t ∧
        Yields (leaveNode setup e s.nextId size (e.node.source.or s.state.source)) t () u := by
  obtain ⟨id, s₁, hid, h⟩ := yields_bind.1 h
  obtain ⟨rfl, rfl⟩ := yields_takeId.1 hid
  obtain ⟨size, s₂, hchecked, h⟩ := yields_bind.1 h
  obtain ⟨hsize, rfl⟩ := yields_checked.1 hchecked
  obtain ⟨before, s₃, hbuilt, h⟩ := yields_bind.1 h
  obtain ⟨rfl, rfl⟩ := yields_built.1 hbuilt
  obtain ⟨_, s₄, henter, h⟩ := yields_bind.1 h
  obtain rfl := yields_build.1 henter
  obtain ⟨_, s₅, hparents, h⟩ := yields_bind.1 h
  obtain rfl := yields_build.1 hparents
  obtain ⟨_, t, hvisit, h⟩ := yields_bind.1 h
  exact ⟨size, t, hsize, hvisit, h⟩

/-- The page of an element with its description and its rows. -/
def pageOf (e : Element) (size : Nat) (desc : Option String) (fields : List FieldRow)
    (children : List ChildRow) : List Markup :=
  match e.node.kind with
  | .reg => registerPage e size desc fields
  | .mem => memoryPage e size desc
  | .addrmap | .regfile => containerPage e size desc children

/-- A node is described and left with its page, which takes up the rows that wait if it is a
register's. -/
theorem leaveNode_cases {e : Element} {id size : Nat} {source : Option Path} {a : Unit}
    (h : Yields (leaveNode setup e id size source) t a u) :
    ∃ desc t', Yields (describe setup e.node.desc? source)
        { t with state := { t.state with
          parents := t.state.parents.tail, sources := t.state.sources.tail } } desc t' ∧
      u = { t' with state := { t'.state with
        pages := t'.state.pages.push (id, Markup.renderAll (pageOf e size desc
          t'.state.fieldRows.toList (childRows (e.children (walkOptions setup.options))
            ((t'.state.index[id]?.map (·.children)).getD #[]))))
        fieldRows := if e.node.kind = .reg then #[] else t'.state.fieldRows } } := by
  obtain ⟨_, t₁, hleave, h⟩ := yields_bind.1 h
  obtain rfl := yields_build.1 hleave
  obtain ⟨desc, t', hdescribe, h⟩ := yields_bind.1 h
  obtain ⟨after, t₂, hbuilt, h⟩ := yields_bind.1 h
  obtain ⟨rfl, rfl⟩ := yields_built.1 hbuilt
  obtain ⟨_, t₃, hpage, h⟩ := yields_bind.1 h
  obtain rfl := yields_build.1 hpage
  refine ⟨desc, t', hdescribe, ?_⟩
  split at h
  case isTrue hreg =>
    obtain rfl := yields_build.1 h
    simp only [pageOf, hreg, if_true]
  case isFalse hreg =>
    obtain ⟨_, rfl⟩ := yields_pure.1 h
    rw [if_neg hreg]
    cases hkind : e.node.kind with
    | reg => exact absurd hkind hreg
    | mem => simp only [pageOf, hkind]
    | addrmap => simp only [pageOf, hkind]
    | regfile => simp only [pageOf, hkind]

/-- An element is left with its page; a container lists the children of its entry. -/
theorem yields_leaveNode {e : Element} {id size : Nat} {source : Option Path} {a : Unit}
    (h : Yields (leaveNode setup e id size source) t a u) :
    ∃ page, u.state.entries = t.state.entries ∧
      u.state.pages = t.state.pages.push (id, page) ∧
      u.state.parents = t.state.parents.tail ∧ u.nextId = t.nextId ∧
      (e.node.kind = .addrmap ∨ e.node.kind = .regfile → ∃ desc,
        page = Markup.renderAll (containerPage e size desc
          (childRows (e.children (walkOptions setup.options))
            ((t.state.entries[id]?.map (·.children)).getD #[])))) := by
  obtain ⟨desc, t', hdescribe, rfl⟩ := leaveNode_cases h
  have hsame := leavesTree_describe _ _ _ _ _ hdescribe
  have hentries : t'.state.entries = t.state.entries := hsame.entries_eq
  have hpages (page : String) :
      t'.state.pages.push (id, page) = t.state.pages.push (id, page) := by rw [hsame.pages_eq]
  refine ⟨_, hentries, hpages _, hsame.parents_eq, hsame.nextId_eq, fun hkind => ⟨desc, ?_⟩⟩
  rw [State.children_eq, hentries]
  rcases hkind with hkind | hkind <;> rw [pageOf, hkind]

theorem visits_visitNode (e : Element) {inside : HtmlM Unit}
    (hinside : Visits (walkOptions setup.options) inside
      (e.children (walkOptions setup.options))) :
    Visits (walkOptions setup.options) (visitNode setup e inside) [e] := by
  intro s _ u h hs
  obtain ⟨size, t, hsize, hvisit, hleave⟩ := yields_visitNode h
  have hopened := isNumbered_opened hs e size (e.node.source.or s.state.source)
  obtain ⟨inner, pages, hdocuments, hentries, hpages, hparents, hnext⟩ :=
    (hinside _ () t hvisit hopened).inside hs
  obtain ⟨page, hentries', hpages', hparents', hnext', hlists⟩ := yields_leaveNode hleave
  have hentry : t.state.entries[s.nextId]? =
      some (entryOf (walkOptions setup.options) s.state.parents.head? s.nextId e size) := by
    rw [hentries, List.getElem?_append_right (by simp [hs.nextId_eq])]
    simp [hs.nextId_eq]
  rw [hentry] at hlists
  refine ⟨_, _, .cons hsize hlists hdocuments (.nil _ _), ?_, ?_, ?_, ?_⟩
  · rw [hentries', hentries, List.append_nil]
    rfl
  · rw [hpages', Array.toList_push, hpages, List.append_assoc]
  · rw [hparents', hparents, List.tail_cons]
  · rw [hnext', hnext, List.length_cons, List.length_append, List.length_nil]
    omega

/-! The walk of a map. -/

theorem leavesTree_fields (e : Element) : LeavesTree ((emitter setup).fields e) :=
  .forM fun f => leavesTree_visitField f f.accessCode

theorem visits_below {e : Element}
    (h : ∀ c ∈ e.children (walkOptions setup.options),
      Visits (walkOptions setup.options) ((emitter setup).meet e c) [c]) :
    Visits (walkOptions setup.options) ((emitter setup).below e)
      (e.children (walkOptions setup.options)) := by
  intro s _ t hstep hs
  rw [Emitter.below_eq] at hstep
  exact visits_forM h s _ t ((emitter setup).yields_needing.1 hstep).2 hs

theorem visits_meet (e : Element) : e.node.IsValid → ∀ parent,
    Visits (walkOptions setup.options) ((emitter setup).meet parent e) [e] := by
  induction e using Element.induction (walkOptions setup.options) with
  | step e ih =>
    intro hvalid parent
    have hbelow := visits_below (e := e) fun c hc =>
      ih c hc (Element.isValid_of_mem_children hvalid hc) e
    have hchildless (h : e.node.children = []) : e.children (walkOptions setup.options) = [] := by
      rw [Element.children, h]
      rfl
    cases hkind : e.node.kind with
    | addrmap =>
      rw [Emitter.meet_of_container _ (Or.inl hkind)]
      exact visits_visitNode e hbelow
    | regfile =>
      rw [Emitter.meet_of_container _ (Or.inr hkind)]
      exact visits_visitNode e hbelow
    | reg =>
      rw [Emitter.meet_of_register _ hkind]
      refine .after (.checkRegisterArray e) fun _ => visits_visitNode e ?_
      rw [hchildless (hvalid.children_of_register hkind)]
      exact (leavesTree_fields e).visits
    | mem =>
      rw [Emitter.meet_of_memory _ hkind]
      refine visits_visitNode e ?_
      rw [hchildless (hvalid.children_of_memory hkind)]
      exact (LeavesTree.pure ()).visits

/-- The top of a reference is never split. -/
theorem visits_visitTop {top : Node} (hvalid : top.IsValid) :
    Visits (walkOptions setup.options)
      ((emitter setup).visitTop (.top top) ((emitter setup).explosion top)) [.top top] := by
  have htop : (Element.top top).node.IsValid := hvalid
  exact visits_visitNode (.top top) (visits_below fun c hc =>
    visits_meet c (Element.isValid_of_mem_children htop hc) (.top top))

end RegisterMap.Html
