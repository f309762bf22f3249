import RegisterMap.Proofs.Html.FieldRows
import RegisterMap.Proofs.Watching

/-!
What a reference says about a register and its fields is the register's own. Between two
elements no row waits for a page; the rows of a register are taken up by its page, and its
entry is the last of the index while its fields are met. Files are looked for from where the
node is from, or else from where the nearest node around it is from.
-/

namespace RegisterMap

/-- The file that the innermost of some elements is from, or else the next one around it. -/
def originOf (es : List Element) : Option Path := es.findSome? fun e => e.node.source

theorem originOf_cons (e : Element) (above : List Element) :
    originOf (e :: above) = e.node.source.or (originOf above) := by
  rw [originOf, List.findSome?_cons]
  cases e.node.source <;> rfl

/-- The file that an occurrence is from: that of its node, or else that of the nearest node
around it that has one. -/
def Occurrence.origin (o : Occurrence) : Option Path := originOf (o.element :: o.above)

namespace Html

open ExportM

variable {setup : Setup}

/-- What the index says about the fields of a node: nothing, unless it is a register. -/
def fieldsOf (options : WalkOptions) (n : Node) : Option (List IndexField) :=
  if n.kind = .reg then some ((n.metFields options).map indexField) else none

/-- The fields that the page of a node shows: its own, if it is a register. -/
def ownFields (options : WalkOptions) (n : Node) : List Field :=
  if n.kind = .reg then n.metFields options else []

/-- What a reader finds on the page of an occurrence: its own description, a row for each of
its own fields in their order, and the sections of those that there is more to tell about. -/
structure TellsOwn (setup : Setup) (o : Occurrence) (page : List Markup) : Prop where
  descs_eq : shownDescs page = (shownFrom setup o.origin o.element.node.desc?).toList
  fields_eq : shownFields page =
    (ownFields (walkOptions setup.options) o.element.node).map shownField
  sections_eq : shownSections page =
    ((ownFields (walkOptions setup.options) o.element.node).filter hasDetails).map
      (shownSection setup o.origin)

/-- The page of an occurrence, made from its own description and its own fields. -/
def ownPage (setup : Setup) (o : Occurrence) (size : Nat) (children : List ChildRow) :
    List Markup :=
  pageOf o.element size (shownFrom setup o.origin o.element.node.desc?)
    ((o.element.node.metFields (walkOptions setup.options)).map (fieldRow setup o.origin)) children

theorem tellsOwn_ownPage (setup : Setup) (o : Occurrence) (size : Nat)
    (children : List ChildRow) : TellsOwn setup o (ownPage setup o size children) where
  descs_eq := shownDescs_pageOf
  fields_eq := by
    rw [ownPage, shownFields_pageOf, ownFields]
    split
    · rw [List.map_map]
      exact List.map_congr_left fun f _ => shown_fieldRow setup o.origin f
    · rfl
  sections_eq := by
    rw [ownPage, shownSections_pageOf, ownFields]
    split
    · rw [List.filter_map, List.map_map]
      have hmore : FieldRow.hasMore ∘ fieldRow setup o.origin = hasDetails :=
        funext fun f => hasMore_fieldRow setup o.origin f
      rw [hmore]
      exact List.map_congr_left fun f _ => shownSection_fieldRow setup o.origin f
    · rfl

/-- The text of a page that tells of an occurrence what is its own. -/
def ShowsOwn (setup : Setup) (o : Occurrence) (size : Nat) (text : String) : Prop :=
  ∃ children, text = Markup.renderAll (ownPage setup o size children) ∧
    TellsOwn setup o (ownPage setup o size children)

/-- Pages among which are those of some occurrences, numbered from a first one on. -/
def HavePages (setup : Setup) (first : Nat) (os : List Occurrence)
    (pages : List (Nat × String)) : Prop :=
  ∀ found ∈ os.zipIdx first, ∃ size page, found.1.element.node.size? = some size ∧
    (found.2, page) ∈ pages ∧ ShowsOwn setup found.1 size page

theorem HavePages.mono {first : Nat} {os : List Occurrence} {pages more : List (Nat × String)}
    (h : HavePages setup first os pages) (hsub : pages ⊆ more) :
    HavePages setup first os more := by
  intro found hfound
  obtain ⟨size, page, hsize, hpage, hshows⟩ := h found hfound
  exact ⟨size, page, hsize, hsub hpage, hshows⟩

theorem HavePages.append {first : Nat} {os os' : List Occurrence} {pages : List (Nat × String)}
    (h : HavePages setup first os pages) (h' : HavePages setup (first + os.length) os' pages) :
    HavePages setup first (os ++ os') pages := by
  intro found hfound
  rw [List.zipIdx_append] at hfound
  exact (List.mem_append.1 hfound).elim (h found) (h' found)

/-! Visits. -/

/-- A session between two elements, with what the next one lies in. -/
structure IsReady (above : List Element) (s : Session State) : Prop where
  fieldRows_eq : s.state.fieldRows = #[]
  source_eq : s.state.source = originOf above
  nextId_eq : s.nextId = s.state.fieldLists.length

/-- What a session has more than another, when some occurrences have been visited. -/
structure Filled (setup : Setup) (os : List Occurrence) (s t : Session State) : Prop where
  fieldLists_eq : t.state.fieldLists = s.state.fieldLists ++
    os.map fun o => fieldsOf (walkOptions setup.options) o.element.node
  havePages : HavePages setup s.nextId os t.state.pages.toList
  keepsPages : s.state.pages.toList ⊆ t.state.pages.toList
  fieldRows_eq : t.state.fieldRows = #[]
  sources_eq : t.state.sources = s.state.sources
  nextId_eq : t.nextId = s.nextId + os.length

namespace Filled

variable {os os' : List Occurrence} {above : List Element} {s t u : Session State}

theorem isReady (h : Filled setup os s t) (hs : IsReady above s) : IsReady above t where
  fieldRows_eq := h.fieldRows_eq
  source_eq := by rw [← hs.source_eq, State.source, State.source, h.sources_eq]
  nextId_eq := by
    rw [h.nextId_eq, h.fieldLists_eq, hs.nextId_eq, List.length_append, List.length_map]

theorem append (h : Filled setup os s t) (h' : Filled setup os' t u) :
    Filled setup (os ++ os') s u where
  fieldLists_eq := by
    rw [h'.fieldLists_eq, h.fieldLists_eq, List.map_append, List.append_assoc]
  havePages := (h.havePages.mono h'.keepsPages).append (h.nextId_eq ▸ h'.havePages)
  keepsPages := List.Subset.trans h.keepsPages h'.keepsPages
  fieldRows_eq := h'.fieldRows_eq
  sources_eq := h'.sources_eq.trans h.sources_eq
  nextId_eq := by rw [h'.nextId_eq, h.nextId_eq, List.length_append, Nat.add_assoc]

end Filled

/-- A step that visits some occurrences, and goes on in the same way where it is watched. -/
def Fills (setup : Setup) (above : List Element) (step watched : HtmlM Unit)
    (os : List Occurrence) : Prop :=
  ∀ s u t, IsReady above s → Yields step s u t → Yields watched s u t ∧ Filled setup os s t

theorem fills_forM {above : List Element} {es : List Element} {step watched : Element → HtmlM Unit}
    {inner : Element → List Occurrence}
    (h : ∀ e ∈ es, Fills setup above (step e) (watched e) (inner e)) :
    Fills setup above (forM es step) (forM es watched) (es.flatMap inner) := by
  induction es with
  | nil =>
    intro s u t hs hstep
    obtain ⟨_, rfl⟩ := yields_pure.1 hstep
    exact ⟨hstep, by simp, by simp [HavePages], fun _ h => h, hs.fieldRows_eq, rfl, rfl⟩
  | cons e rest ih =>
    intro s u t hs hstep
    rw [List.forM_cons] at hstep ⊢
    obtain ⟨v, s', hfirst, hrest⟩ := yields_bind.1 hstep
    obtain ⟨hwatched, hfilled⟩ := h e List.mem_cons_self s v s' hs hfirst
    obtain ⟨hwatched', hfilled'⟩ := ih (fun c hc => h c (List.mem_cons_of_mem e hc)) s' u t
      (hfilled.isReady hs) hrest
    exact ⟨yields_bind.2 ⟨v, s', hwatched, hwatched'⟩, hfilled.append hfilled'⟩

/-! One node. -/

/-- A visit goes as what is inside it. -/
theorem yields_visitNode_of {e : Element} {inside : HtmlM Unit} {size : Nat}
    {s t u : Session State} (hsize : e.node.size? = some size)
    (hinside : Yields inside (opened s e size (e.node.source.or s.state.source)) () t)
    (hleave : Yields (leaveNode setup e s.nextId size (e.node.source.or s.state.source)) t () u) :
    Yields (visitNode setup e inside) s () u :=
  yields_bind.2 ⟨s.nextId, _, yields_takeId.2 ⟨rfl, rfl⟩, yields_bind.2 ⟨size, _,
    yields_checked.2 ⟨hsize, rfl⟩, yields_bind.2 ⟨s.state, _, yields_built.2 ⟨rfl, rfl⟩,
      yields_bind.2 ⟨(), _, yields_build.2 rfl, yields_bind.2 ⟨(), _, yields_build.2 rfl,
        yields_bind.2 ⟨(), t, hinside, hleave⟩⟩⟩⟩⟩⟩

/-- A session when all inside an occurrence has been visited, which was entered in another
one. -/
structure Finished (setup : Setup) (o : Occurrence) (inner : List Occurrence)
    (s t : Session State) : Prop where
  fieldLists_eq : t.state.fieldLists = s.state.fieldLists ++
    (o :: inner).map fun q => fieldsOf (walkOptions setup.options) q.element.node
  fieldRows_eq : t.state.fieldRows.toList =
    if o.element.node.kind = .reg then
      (o.element.node.metFields (walkOptions setup.options)).map (fieldRow setup o.origin)
    else []
  havePages : HavePages setup (s.nextId + 1) inner t.state.pages.toList
  keepsPages : s.state.pages.toList ⊆ t.state.pages.toList
  sources_eq : t.state.sources = o.origin :: s.state.sources
  nextId_eq : t.nextId = s.nextId + 1 + inner.length

/-- The rows that wait are those of the page. Only a register's page takes any. -/
theorem Finished.showsOwn {o : Occurrence} {inner : List Occurrence} {s t : Session State}
    (h : Finished setup o inner s t) (size : Nat) (children : List ChildRow) :
    ShowsOwn setup o size (Markup.renderAll (pageOf o.element size
      (shownFrom setup o.origin o.element.node.desc?) t.state.fieldRows.toList children)) := by
  refine ⟨children, ?_, tellsOwn_ownPage setup o size children⟩
  rw [h.fieldRows_eq, ownPage]
  cases hkind : o.element.node.kind <;> simp [pageOf, hkind]

/-- The page of an occurrence follows those of all inside it. -/
theorem Finished.filled {o : Occurrence} {inner : List Occurrence} {s t v : Session State}
    {size : Nat} {u : Unit} (h : Finished setup o inner s t)
    (hsize : o.element.node.size? = some size)
    (hleave : Yields (leaveNode setup o.element s.nextId size o.origin) t u v) :
    Filled setup (o :: inner) s v := by
  obtain ⟨desc, t', hdescribe, rfl⟩ := leaveNode_cases hleave
  obtain ⟨rfl, assets, rfl⟩ := displays_describe _ _ _ _ _ hdescribe
  refine ⟨h.fieldLists_eq, ?_, ?_, ?_, ?_, ?_⟩
  · intro found hfound
    rw [List.zipIdx_cons, List.mem_cons] at hfound
    rcases hfound with rfl | hfound
    -- The page of the occurrence itself is the last one, those inside it were there before.
    · refine ⟨size, _, hsize, ?_, h.showsOwn size (childRows
        (o.element.children (walkOptions setup.options))
        ((t.state.index[s.nextId]?.map (·.children)).getD #[]))⟩
      simp
    · obtain ⟨size', page, hsize', hpage, hown⟩ := h.havePages found hfound
      exact ⟨size', page, hsize', by simp [hpage], hown⟩
  · intro page hpage
    simp [h.keepsPages hpage]
  · have hempty : o.element.node.kind ≠ .reg → t.state.fieldRows = #[] := by
      intro hkind
      simpa [hkind] using h.fieldRows_eq
    by_cases hkind : o.element.node.kind = .reg
    · simp [hkind]
    · simp [hkind, hempty hkind]
  · simp [h.sources_eq]
  · rw [List.length_cons]
    exact h.nextId_eq.trans (by omega)

theorem fieldLists_opened (s : Session State) (e : Element) (size : Nat) (source : Option Path) :
    (opened s e size source).state.fieldLists =
      s.state.fieldLists ++ [if e.node.kind = .reg then some [] else none] := by
  have hchildren (p : Nat) : (s.state.index.toList.modify p fun above =>
      { above with children := above.children.push s.nextId }).map IndexEntry.fields =
        s.state.index.toList.map IndexEntry.fields := by
    have hsame := map_modify s.state.index.toList p (r := IndexEntry.fields)
      (f := fun above => { above with children := above.children.push s.nextId })
      (g := fun fields => fields) fun _ => rfl
    exact hsame.trans (List.modify_id p _)
  unfold opened State.enter State.fieldLists
  cases s.state.parents.head? with
  | none => simp
  | some p => simpa using hchildren p

theorem isReady_opened {o : Occurrence} {s : Session State} (hs : IsReady o.above s) (size : Nat) :
    IsReady (o.element :: o.above) (opened s o.element size o.origin) where
  fieldRows_eq := hs.fieldRows_eq
  source_eq := rfl
  nextId_eq := by
    rw [fieldLists_opened, List.length_append, ← hs.nextId_eq]
    rfl

/-- A visit of an occurrence, where what is inside it is visited to its end. -/
theorem fills_visitNode {o : Occurrence} {inside watched : HtmlM Unit} {inner : List Occurrence}
    (hinside : ∀ s size t, IsReady o.above s →
      Yields inside (opened s o.element size o.origin) () t →
        Yields watched (opened s o.element size o.origin) () t ∧ Finished setup o inner s t) :
    Fills setup o.above (visitNode setup o.element inside) (visitNode setup o.element watched)
      (o :: inner) := by
  intro s u v hs hstep
  obtain ⟨size, t, hsize, hvisit, hleave⟩ := yields_visitNode hstep
  -- The source is looked up before the visit and kept, so it does not matter that the stack is
  -- back to what is above when the node is described.
  have horigin : o.element.node.source.or s.state.source = o.origin := by
    rw [hs.source_eq, Occurrence.origin, originOf_cons]
  rw [horigin] at hvisit hleave
  obtain ⟨hwatched, hfinished⟩ := hinside s size t hs hvisit
  refine ⟨?_, hfinished.filled hsize hleave⟩
  rw [← horigin] at hwatched hleave
  exact yields_visitNode_of hsize hwatched hleave

/-- The elements inside a container are visited one after the other. -/
theorem Filled.finished {o : Occurrence} {inner : List Occurrence} {s t : Session State}
    {size : Nat} (hkind : o.element.node.kind ≠ .reg)
    (h : Filled setup inner (opened s o.element size o.origin) t) :
    Finished setup o inner s t where
  fieldLists_eq := by
    rw [h.fieldLists_eq, fieldLists_opened, if_neg hkind, List.append_assoc, List.map_cons,
      fieldsOf, if_neg hkind]
    rfl
  fieldRows_eq := by rw [if_neg hkind, h.fieldRows_eq]
  havePages := h.havePages
  keepsPages := h.keepsPages
  sources_eq := h.sources_eq
  nextId_eq := h.nextId_eq

theorem finished_opened {o : Occurrence} {s : Session State} (hs : IsReady o.above s)
    (hkind : o.element.node.kind ≠ .reg) (size : Nat) :
    Finished setup o [] s (opened s o.element size o.origin) :=
  Filled.finished hkind
    ⟨by simp, by simp [HavePages], fun _ h => h, (isReady_opened hs size).fieldRows_eq, rfl, rfl⟩

/-- A register has gathered its fields, all of them its own. -/
theorem Gathers.finished {o : Occurrence} {s t : Session State}
    (hkind : o.element.node.kind = .reg)
    (h : Gathers setup o.origin s (o.element.node.metFields (walkOptions setup.options)) t) :
    Finished setup o [] s t where
  fieldLists_eq := by
    rw [h.fieldLists_eq, List.map_singleton, fieldsOf, if_pos hkind]
  fieldRows_eq := by rw [if_pos hkind, h.fieldRows_eq]
  havePages := by simp [HavePages]
  keepsPages := by rw [h.pages_eq]; exact fun _ h => h
  sources_eq := h.sources_eq
  nextId_eq := h.nextId_eq

theorem gathers_opened {o : Occurrence} {s : Session State} (hs : IsReady o.above s)
    (hkind : o.element.node.kind = .reg) (size : Nat) :
    Gathers setup o.origin s [] (opened s o.element size o.origin) where
  fieldLists_eq := by rw [fieldLists_opened, if_pos hkind, List.map_nil]
  fieldRows_eq := by
    rw [(isReady_opened hs size).fieldRows_eq]
    rfl
  parent_eq := congrArg some hs.nextId_eq
  sources_eq := rfl
  pages_eq := rfl
  nextId_eq := rfl

/-! The walk of a map. -/

/-- The export that stops where rows still wait for a page when a register comes next. -/
def watchedEmitter (setup : Setup) : Emitter State :=
  (emitter setup).watching fun state => state.fieldRows.isEmpty

theorem fills_below {o : Occurrence}
    (h : ∀ c ∈ o.element.children (walkOptions setup.options),
      Fills setup (o.element :: o.above) ((emitter setup).meet o.element c)
        ((watchedEmitter setup).meet o.element c) ((o.inside c).walk (walkOptions setup.options))) :
    Fills setup (o.element :: o.above) ((emitter setup).below o.element)
      ((watchedEmitter setup).below o.element)
      ((o.element.children (walkOptions setup.options)).flatMap fun c =>
        (o.inside c).walk (walkOptions setup.options)) := by
  intro s u t hs hstep
  rw [Emitter.below_eq] at hstep ⊢
  obtain ⟨hfit, hsteps⟩ := (emitter setup).yields_needing.1 hstep
  obtain ⟨hwatched, hfilled⟩ := fills_forM h s u t hs hsteps
  exact ⟨(watchedEmitter setup).yields_needing.2 ⟨hfit, hwatched⟩, hfilled⟩

theorem fills_container {o : Occurrence} (hkind : o.element.node.kind ≠ .reg)
    {inside watched : HtmlM Unit} {inner : List Occurrence}
    (h : Fills setup (o.element :: o.above) inside watched inner) :
    Fills setup o.above (visitNode setup o.element inside) (visitNode setup o.element watched)
      (o :: inner) := by
  refine fills_visitNode fun s size t hs hstep => ?_
  obtain ⟨hwatched, hfilled⟩ := h _ () t (isReady_opened hs size) hstep
  exact ⟨hwatched, hfilled.finished hkind⟩

theorem fills_memory {o : Occurrence} (hkind : o.element.node.kind ≠ .reg) :
    Fills setup o.above (visitNode setup o.element (pure ()))
      (visitNode setup o.element (pure ())) [o] := by
  refine fills_visitNode fun s size t hs hstep => ⟨hstep, ?_⟩
  obtain ⟨_, rfl⟩ := yields_pure.1 hstep
  exact finished_opened hs hkind size

theorem fills_register {o : Occurrence} (hkind : o.element.node.kind = .reg) (parent : Element) :
    Fills setup o.above
      ((emitter setup).register o.element parent ((emitter setup).fields o.element))
      ((watchedEmitter setup).register o.element parent ((watchedEmitter setup).fields o.element))
      [o] := by
  have hnode : Fills setup o.above (visitNode setup o.element ((emitter setup).fields o.element))
      (visitNode setup o.element ((emitter setup).fields o.element)) [o] := by
    refine fills_visitNode fun s size t hs hstep => ⟨hstep, ?_⟩
    exact ((gathers_opened hs hkind size).forM hstep).finished hkind
  intro s u v hs hstep
  refine ⟨Emitter.yields_register_watching (by rw [hs.fieldRows_eq]; rfl) hstep, ?_⟩
  obtain ⟨_, t, hcheck, hvisit⟩ := yields_bind.1 hstep
  obtain ⟨_, _, rfl⟩ := yields_checkRegisterArray.1 hcheck
  have hready : IsReady o.above (s.tellGap o.element) :=
    ⟨by simp [hs.fieldRows_eq], by simp [hs.source_eq], by simp [hs.nextId_eq]⟩
  obtain ⟨_, hfilled⟩ := hnode _ u v hready hvisit
  exact ⟨by simp [hfilled.fieldLists_eq], by simpa using hfilled.havePages,
    by simpa using hfilled.keepsPages, hfilled.fieldRows_eq, by simp [hfilled.sources_eq],
    by simp [hfilled.nextId_eq]⟩

theorem fills_meet (o : Occurrence) : o.element.node.IsValid → ∀ parent,
    Fills setup o.above ((emitter setup).meet parent o.element)
      ((watchedEmitter setup).meet parent o.element) (o.walk (walkOptions setup.options)) := by
  induction o using Occurrence.induction (walkOptions setup.options) with
  | step o ih =>
    intro hvalid parent
    have hbelow := fills_below (o := o) fun c hc =>
      ih c hc (Element.isValid_of_mem_children hvalid hc) o.element
    have hwalk : o.walk (walkOptions setup.options) =
        o :: (o.element.children (walkOptions setup.options)).flatMap fun c =>
          (o.inside c).walk (walkOptions setup.options) := by
      rw [Occurrence.walk_eq, Occurrence.children, List.flatMap_map]
    cases hkind : o.element.node.kind with
    | addrmap =>
      rw [Emitter.meet_of_container _ (Or.inl hkind), Emitter.meet_of_container _ (Or.inl hkind),
        hwalk]
      exact fills_container (by simp [hkind]) hbelow
    | regfile =>
      rw [Emitter.meet_of_container _ (Or.inr hkind), Emitter.meet_of_container _ (Or.inr hkind),
        hwalk]
      exact fills_container (by simp [hkind]) hbelow
    | reg =>
      rw [Emitter.meet_of_register _ hkind, Emitter.meet_of_register _ hkind,
        Occurrence.walk_of_childless (hvalid.children_of_register hkind)]
      exact fills_register hkind parent
    | mem =>
      rw [Emitter.meet_of_memory _ hkind, Emitter.meet_of_memory _ hkind,
        Occurrence.walk_of_childless (hvalid.children_of_memory hkind)]
      exact fills_memory (by simp [hkind])

/-- The top of a reference is never a register. -/
theorem fills_top (setup : Setup) {top : Node} (hkind : top.kind.canBeTop = true)
    (hvalid : top.IsValid) :
    Fills setup [] (visitNode setup (.top top) ((emitter setup).below (.top top)))
      (visitNode setup (.top top) ((watchedEmitter setup).below (.top top)))
      (Occurrence.all (walkOptions setup.options) top) := by
  have htop : (Element.top top).node.IsValid := hvalid
  have hreg : (Element.top top).node.kind ≠ .reg := by
    intro hreg
    have hnot : Kind.reg.canBeTop = true := hreg ▸ hkind
    cases hnot
  rw [Occurrence.all, Occurrence.walk_eq, Occurrence.children, List.flatMap_map]
  exact fills_container (o := Occurrence.top top) hreg (fills_below fun c hc =>
    fills_meet ((Occurrence.top top).inside c) (Element.isValid_of_mem_children htop hc) (.top top))

end Html

end RegisterMap
