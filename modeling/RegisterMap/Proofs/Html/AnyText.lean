import RegisterMap.Proofs.Html.PageTags
import RegisterMap.Proofs.Html.Paragraphs
import RegisterMap.Proofs.Html.Reference

/-!
A reference whatever the map says. Where descriptions are plain text, the export of a map and
that of the same map in other words go through the same steps, and every page of the one has
the same marks as the page of the other with its number. So all marks of a page are those of
its tags, which are nested, and none comes from the map.
-/

namespace RegisterMap.Html

open ExportM

/-! Two exports side by side. -/

/-- Pages under one number, with the same tags. -/
def SamePage (page page' : Nat × String) : Prop :=
  page.1 = page'.1 ∧ SameTags [] page.2 page'.2

/-- What is built of two maps that differ in their words. -/
structure State.Matches (s s' : State) : Prop where
  children_eq : s.entries.map (·.children) = s'.entries.map (·.children)
  parents_eq : s.parents = s'.parents
  fieldRows : List.Forall₂ FieldRow.Alike s.fieldRows.toList s'.fieldRows.toList
  pages : List.Forall₂ SamePage s.pages.toList s'.pages.toList

structure Matching (s s' : Session State) : Prop where
  state : s.state.Matches s'.state
  nextId_eq : s.nextId = s'.nextId

/-- A step that gets on wherever another one does in a session that matches, and leaves a
session that matches again. -/
def Follows {α β : Type} (related : α → β → Prop) (step : HtmlM α) (step' : HtmlM β) : Prop :=
  ∀ s s' a t, Matching s s' → Yields step s a t →
    ∃ a' t', Yields step' s' a' t' ∧ related a a' ∧ Matching t t'

namespace Follows

variable {α β γ δ : Type} {related : α → β → Prop} {after : γ → δ → Prop}

theorem pure {a : α} {b : β} (h : related a b) :
    Follows related (Pure.pure a) (Pure.pure b) := by
  intro s s' c t hmatch hstep
  obtain ⟨rfl, rfl⟩ := yields_pure.1 hstep
  exact ⟨b, s', yields_pure.2 ⟨rfl, rfl⟩, h, hmatch⟩

theorem bind {step : HtmlM α} {step' : HtmlM β} {next : α → HtmlM γ} {next' : β → HtmlM δ}
    (hstep : Follows related step step')
    (hnext : ∀ a b, related a b → Follows after (next a) (next' b)) :
    Follows after (step >>= next) (step' >>= next') := by
  intro s s' c u hmatch h
  obtain ⟨a, t, hfirst, hrest⟩ := yields_bind.1 h
  obtain ⟨b, t', hfirst', hrelated, hmatch'⟩ := hstep s s' a t hmatch hfirst
  obtain ⟨d, u', hrest', hafter, hmatch''⟩ := hnext a b hrelated t t' c u hmatch' hrest
  exact ⟨d, u', yields_bind.2 ⟨b, t', hfirst', hrest'⟩, hafter, hmatch''⟩

theorem built : Follows State.Matches ExportM.built ExportM.built := by
  intro s s' a t hmatch h
  obtain ⟨rfl, rfl⟩ := yields_built.1 h
  exact ⟨s'.state, s', yields_built.2 ⟨rfl, rfl⟩, hmatch.state, hmatch⟩

theorem build {g g' : State → State} (h : ∀ s s', s.Matches s' → (g s).Matches (g' s')) :
    Follows Eq (ExportM.build g) (ExportM.build g') := by
  intro s s' _ t hmatch hstep
  obtain rfl := yields_build.1 hstep
  exact ⟨(), _, yields_build.2 rfl, rfl, h _ _ hmatch.state, hmatch.nextId_eq⟩

theorem takeId : Follows Eq (ExportM.takeId : HtmlM Nat) ExportM.takeId := by
  intro s s' id t hmatch h
  obtain ⟨rfl, rfl⟩ := yields_takeId.1 h
  exact ⟨s'.nextId, _, yields_takeId.2 ⟨rfl, rfl⟩, hmatch.nextId_eq, hmatch.state,
    congrArg (· + 1) hmatch.nextId_eq⟩

theorem checked {o o' : Option α} (h : o' = o) :
    Follows Eq (ExportM.checked o : HtmlM α) (ExportM.checked o') := by
  intro s s' a t hmatch hstep
  obtain ⟨hsome, rfl⟩ := yields_checked.1 hstep
  exact ⟨a, s', yields_checked.2 ⟨h.trans hsome, rfl⟩, rfl, hmatch⟩

theorem mapM {items : List α} {items' : List β} {step : α → HtmlM γ} {step' : β → HtmlM δ}
    (hitems : List.Forall₂ related items items')
    (h : ∀ a b, related a b → Follows after (step a) (step' b)) :
    Follows (List.Forall₂ after) (items.mapM step) (items'.mapM step') := by
  induction hitems with
  | nil => exact pure .nil
  | cons hitem _ ih =>
    rw [List.mapM_cons, List.mapM_cons]
    exact (h _ _ hitem).bind fun _ _ hfirst => ih.bind fun _ _ hrest => pure (.cons hfirst hrest)

theorem forM {items : List α} {items' : List β} {step : α → HtmlM Unit} {step' : β → HtmlM Unit}
    (hitems : List.Forall₂ related items items')
    (h : ∀ a b, related a b → Follows Eq (step a) (step' b)) :
    Follows Eq (forM items step) (forM items' step') := by
  induction hitems with
  | nil => exact pure rfl
  | cons hitem _ ih =>
    rw [List.forM_cons, List.forM_cons]
    exact (h _ _ hitem).bind fun _ _ _ => ih

end Follows

/-! Maps in other words. -/

def Setup.reworded (f : String → String) (setup : Setup) : Setup :=
  { setup with
    options := { setup.options with
      title := setup.options.title.map f
      footer := f setup.options.footer
      homeUrl := setup.options.homeUrl.map f } }

variable {f : String → String} {setup : Setup} {e e' : Element}

/-- A description that is plain text becomes its paragraphs, and nothing else changes. -/
theorem yields_describe (hplain : setup.renderer = .plainText) {text : Option String}
    {origin : Option Path} {s t : Session State} {desc : Option String} :
    Yields (describe setup text origin) s desc t ↔
      (text.filter fun t => !Text.allBlank t.toList).map plainText = desc ∧ s = t := by
  unfold describe
  cases text.filter fun t => !Text.allBlank t.toList with
  | none => simp
  | some text =>
    have hmarkup (assets : FileSet) : bundleImages setup.view origin
        (promoteHeadings setup.options.headingOffset (setup.renderer.render text)) assets =
          .ok (plainText text, assets) := by
      rw [hplain, Renderer.render, promoteHeadings_plainText, bundleImages_plainText]
    simp only [hmarkup]
    constructor
    · intro h
      obtain ⟨_, s₁, hbuilt, h⟩ := yields_bind.1 h
      obtain ⟨rfl, rfl⟩ := yields_built.1 hbuilt
      obtain ⟨_, s₂, hbuild, h⟩ := yields_bind.1 h
      obtain rfl := yields_build.1 hbuild
      exact yields_pure.1 h
    · rintro ⟨rfl, rfl⟩
      exact yields_bind.2 ⟨_, _, yields_built.2 ⟨rfl, rfl⟩,
        yields_bind.2 ⟨(), _, yields_build.2 rfl, yields_pure.2 ⟨rfl, rfl⟩⟩⟩

theorem follows_describe (hplain : setup.renderer = .plainText) (hf : KeepsParagraphs f)
    (text : Option String) (origin origin' : Option Path) :
    Follows SameDesc (describe setup text origin)
      (describe (setup.reworded f) (text.map f) origin') := by
  intro s s' desc t hmatch h
  obtain ⟨rfl, rfl⟩ := (yields_describe hplain).1 h
  have hplain' : (setup.reworded f).renderer = .plainText := hplain
  refine ⟨_, s', (yields_describe hplain').2 ⟨rfl, rfl⟩, ?_, hmatch⟩
  cases text with
  | none => exact .none
  | some text =>
    rw [Option.map_some, Option.filter_some, Option.filter_some, hf.allBlank_eq]
    split
    · exact .some (sameTags_plainText (hf text).symm)
    · exact .none

/-! Elements and fields. -/

theorem length_childRows (children : List Element) (ids : Array Nat) :
    (childRows children ids).length = min children.length ids.size := by
  simp [childRows]

theorem map_children_adopt (parent : Option Nat) (ids : List Nat) (entries : List IndexEntry) :
    (adopt parent ids entries).map (·.children) =
      parent.elim (entries.map (·.children)) fun p =>
        (entries.map (·.children)).modify p (· ++ ids.toArray) := by
  cases parent with
  | none => rfl
  | some p => exact map_modify entries p fun _ => rfl

namespace State.Matches

variable {s s' : State}

theorem children (h : s.Matches s') (id : Nat) :
    s.index[id]?.map (·.children) = s'.index[id]?.map (·.children) := by
  rw [State.children_eq, State.children_eq, ← List.getElem?_map, ← List.getElem?_map,
    h.children_eq]

theorem enter (h : s.Matches s') (id size : Nat) (e e' : Element) :
    (s.enter id e size).Matches (s'.enter id e' size) where
  children_eq := by
    simp only [State.entries_enter {}, List.map_append, map_children_adopt, h.parents_eq,
      h.children_eq]
    rfl
  parents_eq := h.parents_eq
  fieldRows := h.fieldRows
  pages := h.pages

/-- A change of what is being visited only. -/
theorem visiting (h : s.Matches s') {parents parents' : List Nat} (hparents : parents = parents')
    (sources sources' : List (Option Path)) :
    State.Matches { s with parents, sources }
      { s' with parents := parents', sources := sources' } :=
  ⟨h.children_eq, hparents, h.fieldRows, h.pages⟩

theorem addField (h : s.Matches s') {row row' : FieldRow} (hrow : row.Alike row')
    (field field' : IndexField) :
    State.Matches { s.addField field with fieldRows := s.fieldRows.push row }
      { s'.addField field' with fieldRows := s'.fieldRows.push row' } where
  children_eq := by
    change (s.addField field).entries.map _ = (s'.addField field').entries.map _
    rw [State.entries_addField, State.entries_addField, h.children_eq]
  parents_eq := by
    have hsame (s : State) (field : IndexField) : (s.addField field).parents = s.parents := by
      unfold State.addField
      split <;> rfl
    change (s.addField field).parents = (s'.addField field').parents
    rw [hsame, hsame, h.parents_eq]
  fieldRows := by
    simp only [Array.toList_push]
    exact List.rel_append h.fieldRows (.cons hrow .nil)
  pages := by
    have hsame (s : State) (field : IndexField) : (s.addField field).pages = s.pages := by
      unfold State.addField
      split <;> rfl
    change List.Forall₂ SamePage (s.addField field).pages.toList (s'.addField field').pages.toList
    rw [hsame, hsame]
    exact h.pages

theorem addPage (h : s.Matches s') {page page' : Nat × String} (hpage : SamePage page page') :
    State.Matches { s with pages := s.pages.push page }
      { s' with pages := s'.pages.push page' } where
  children_eq := h.children_eq
  parents_eq := h.parents_eq
  fieldRows := h.fieldRows
  pages := by
    simp only [Array.toList_push]
    exact List.rel_append h.pages (.cons hpage .nil)

theorem clearFields (h : s.Matches s') :
    State.Matches { s with fieldRows := #[] } { s' with fieldRows := #[] } :=
  ⟨h.children_eq, h.parents_eq, .nil, h.pages⟩

end State.Matches

theorem follows_visitNode (hplain : setup.renderer = .plainText) (hf : KeepsParagraphs f)
    (hretold : e.Retold f e') {inside inside' : HtmlM Unit}
    (hinside : Follows Eq inside inside') :
    Follows Eq (visitNode setup e inside) (visitNode (setup.reworded f) e' inside') := by
  have hsize : e'.node.size? = e.node.size? := by rw [hretold.node_eq, Node.size?_reworded]
  have hkind : e'.node.kind = e.node.kind := by rw [hretold.node_eq, Node.kind_reworded]
  unfold visitNode
  refine .bind .takeId ?_
  rintro id _ rfl
  refine .bind (.checked hsize) ?_
  rintro size _ rfl
  refine .bind .built fun before before' _ => ?_
  refine .bind (.build fun s s' h => h.enter id size e e') fun _ _ _ => ?_
  refine .bind (.build fun s s' h => h.visiting (congrArg (id :: ·) h.parents_eq) _ _)
    fun _ _ _ => ?_
  refine .bind hinside fun _ _ _ => ?_
  refine .bind (.build fun s s' h => h.visiting (congrArg List.tail h.parents_eq) _ _)
    fun _ _ _ => ?_
  have hdesc : e'.node.desc? = e.node.desc?.map f := by rw [hretold.node_eq, Node.desc?_reworded]
  rw [hdesc, hkind]
  refine .bind (follows_describe hplain hf _ _ _) fun desc desc' hdesc => ?_
  refine .bind .built fun after after' hafter => ?_
  extract_lets page page'
  have hrows : (childRows (e.children (walkOptions setup.options))
      ((after.index[id]?.map (·.children)).getD #[])).length =
      (childRows (e'.children (walkOptions setup.options))
        ((after'.index[id]?.map (·.children)).getD #[])).length := by
    rw [length_childRows, length_childRows, hafter.children, hretold.children.length_eq]
  have hpage : Alike [] page page' := by
    unfold page page'
    cases e.node.kind with
    | addrmap => exact alike_containerPage hretold size hdesc hrows
    | regfile => exact alike_containerPage hretold size hdesc hrows
    | reg => exact alike_registerPage hretold size hdesc hafter.fieldRows
    | mem => exact alike_memoryPage hretold size hdesc
  refine .bind (.build fun s s' h => h.addPage ⟨rfl, hpage⟩) fun _ _ _ => ?_
  split
  · exact .build fun s s' h => h.clearFields
  · exact .pure rfl

theorem follows_visitField (hplain : setup.renderer = .plainText) (hf : KeepsParagraphs f)
    (field : Field) (access access' : AccessCode) :
    Follows Eq (visitField setup field access)
      (visitField (setup.reworded f) (field.reworded f) access') := by
  have hdesc : (field.reworded f).desc? = field.desc?.map f :=
    Properties.text?_reworded f field.properties (Or.inr rfl)
  have hencode : List.Forall₂ (fun value value' => value' = EnumeratedValue.reworded f value)
      (field.encode?.getD []) ((field.reworded f).encode?.getD []) := by
    have hvalues : (field.reworded f).encode? = _ := Properties.encode?_reworded f field.properties
    rw [hvalues]
    change List.Forall₂ _ (field.encode?.getD [])
      ((field.encode?.map (List.map (EnumeratedValue.reworded f))).getD [])
    cases field.encode? with
    | none => exact .nil
    | some values =>
      exact List.forall₂_map_right_iff.2 (List.forall₂_same.2 fun _ _ => rfl)
  unfold visitField
  rw [hdesc]
  refine .bind .built fun before before' _ => ?_
  refine .bind (follows_describe hplain hf _ _ _) fun desc desc' hdesc => ?_
  have hvalues : Follows
      (List.Forall₂ fun value value' : EncodeRow => SameDesc value.desc value'.desc)
      ((field.encode?.getD []).mapM fun value => do
        let desc ← describe setup value.desc before.source
        return ({ name := value.name, value := value.value, desc } : EncodeRow))
      (((field.reworded f).encode?.getD []).mapM fun value => do
        let desc ← describe (setup.reworded f) value.desc before'.source
        return ({ name := value.name, value := value.value, desc } : EncodeRow)) := by
    refine .mapM hencode ?_
    rintro value _ rfl
    exact .bind (follows_describe hplain hf _ _ _) fun desc desc' hdesc => .pure hdesc
  refine .bind hvalues fun encode encode' hrows => ?_
  exact .build fun s s' h => h.addField ⟨hdesc, hrows⟩ _ _

/-! The walk of a map. -/

theorem follows_checkRegisterArray (hretold : e.Retold f e') :
    Follows Eq (checkRegisterArray e : HtmlM StrideCheck) (checkRegisterArray e') := by
  intro s s' check t hmatch h
  have hcheck : e'.node.strideCheck = e.node.strideCheck := by
    rw [hretold.node_eq, Node.strideCheck_reworded]
  obtain ⟨hspaced, hsame, rfl⟩ := yields_checkRegisterArray.1 h
  have hspaced' : e'.node.IsSpaced := by
    rw [Node.isSpaced_iff, hcheck, ← Node.isSpaced_iff]
    exact hspaced
  refine ⟨check, _, yields_checkRegisterArray.2 ⟨hspaced', hcheck.trans hsame, rfl⟩, rfl, ?_, ?_⟩
  · rw [Session.state_tellGap, Session.state_tellGap]
    exact hmatch.state
  · rw [Session.nextId_tellGap, Session.nextId_tellGap]
    exact hmatch.nextId_eq

theorem follows_fields (hplain : setup.renderer = .plainText) (hf : KeepsParagraphs f)
    (hretold : e.Retold f e') :
    Follows Eq ((emitter setup).fields e) ((emitter (setup.reworded f)).fields e') := by
  have hfields : List.Forall₂ (fun field field' => field' = Field.reworded f field)
      (e.node.metFields (walkOptions setup.options))
      (e'.node.metFields (walkOptions setup.options)) := by
    rw [hretold.node_eq, Node.metFields_reworded]
    exact List.forall₂_map_right_iff.2 (List.forall₂_same.2 fun _ _ => rfl)
  refine Follows.forM hfields ?_
  rintro field _ rfl
  exact follows_visitField hplain hf field _ _

theorem follows_below (hretold : e.Retold f e')
    (h : ∀ c ∈ e.children (walkOptions setup.options), ∀ c', c.Retold f c' →
      Follows Eq ((emitter setup).meet e c) ((emitter (setup.reworded f)).meet e' c')) :
    Follows Eq ((emitter setup).below e) ((emitter (setup.reworded f)).below e') := by
  have hreach : e'.node.children.all (e'.reaches (walkOptions setup.options)) =
      e.node.children.all (e.reaches (walkOptions setup.options)) := hretold.all_reaches
  have hchildren : List.Forall₂
      (fun c c' => c ∈ e.children (walkOptions setup.options) ∧ c.Retold f c')
      (e.children (walkOptions setup.options)) (e'.children (walkOptions setup.options)) :=
    (List.forall₂_and_left _ _).2 ⟨fun _ hc => hc, hretold.children⟩
  rw [Emitter.below_eq, Emitter.below_eq]
  unfold Emitter.needing
  change Follows Eq (if e.node.children.all (e.reaches (walkOptions setup.options)) then _ else _)
    (if e'.node.children.all (e'.reaches (walkOptions setup.options)) then _ else _)
  rw [hreach]
  split
  · exact .forM hchildren fun c c' hc => h c hc.1 c' hc.2
  · intro s s' a t _ hstop
    exact absurd hstop not_yields_stop

theorem follows_meet (hplain : setup.renderer = .plainText) (hf : KeepsParagraphs f)
    (e : Element) : ∀ e', e.Retold f e' → ∀ parent parent',
      Follows Eq ((emitter setup).meet parent e)
        ((emitter (setup.reworded f)).meet parent' e') := by
  induction e using Element.induction (walkOptions setup.options) with
  | step e ih =>
    intro e' hretold parent parent'
    have hsame : e'.node.kind = e.node.kind := by rw [hretold.node_eq, Node.kind_reworded]
    have hbelow := follows_below hretold fun c hc c' hc' => ih c hc c' hc' e e'
    cases hkind : e.node.kind with
    | addrmap =>
      rw [Emitter.meet_of_container _ (Or.inl hkind),
        Emitter.meet_of_container _ (Or.inl (hsame.trans hkind))]
      exact follows_visitNode hplain hf hretold hbelow
    | regfile =>
      rw [Emitter.meet_of_container _ (Or.inr hkind),
        Emitter.meet_of_container _ (Or.inr (hsame.trans hkind))]
      exact follows_visitNode hplain hf hretold hbelow
    | reg =>
      rw [Emitter.meet_of_register _ hkind, Emitter.meet_of_register _ (hsame.trans hkind)]
      exact (follows_checkRegisterArray hretold).bind fun _ _ _ =>
        follows_visitNode hplain hf hretold (follows_fields hplain hf hretold)
    | mem =>
      rw [Emitter.meet_of_memory _ hkind, Emitter.meet_of_memory _ (hsame.trans hkind)]
      exact follows_visitNode hplain hf hretold (.pure rfl)

/-! Whole exports. -/

theorem matching_of_initial {s s' : Session State} (hstate : s.state = {}) (hid : s.nextId = 0)
    (hstate' : s'.state = {}) (hid' : s'.nextId = 0) : Matching s s' := by
  refine ⟨?_, hid.trans hid'.symm⟩
  rw [hstate, hstate']
  exact ⟨rfl, rfl, .nil, .nil⟩

/-- Where a map is exported, it is in other words too, and what is built matches. -/
theorem exists_produce_reworded (hplain : setup.renderer = .plainText) (hf : KeepsParagraphs f)
    {top : Node} {destination : Path} {a : Artifact} {s : Session State}
    (h : (emitter setup).produce top destination = (.ok a, s)) (destination' : Path) :
    ∃ a' s', (emitter (setup.reworded f)).produce (top.reworded f) destination' = (.ok a', s') ∧
      s.state.Matches s'.state := by
  obtain ⟨⟨hkind, hvalid⟩, t, hvisit, rfl, rfl⟩ := produce_eq_ok_iff_visit.1 h
  have htop := Element.retold_top (f := f) top
  have hfollows := follows_visitNode hplain hf htop
    (follows_below htop fun c _ c' hc' => follows_meet hplain hf c c' hc' _ _)
  have hopening : Matching ((emitter setup).opening top destination)
      ((emitter (setup.reworded f)).opening (top.reworded f) destination') :=
    matching_of_initial rfl rfl rfl rfl
  obtain ⟨_, t', hvisit', _, hmatch⟩ := hfollows _ _ _ _ hopening hvisit
  have hkind' : (top.reworded f).kind.canBeTop = true := by rwa [Node.kind_reworded]
  exact ⟨_, _, produce_eq_ok_iff_visit.2
    ⟨⟨hkind', Node.validate_reworded hvalid⟩, t', hvisit', rfl, rfl⟩, hmatch.state⟩

/-! Files. -/

theorem exists_of_mem_forall₂ {α β : Type} {related : α → β → Prop} {items : List α}
    {items' : List β} (h : List.Forall₂ related items items') {a : α} (ha : a ∈ items) :
    ∃ b ∈ items', related a b := by
  induction h with
  | nil => cases ha
  | cons hfirst _ ih =>
    rcases List.mem_cons.1 ha with rfl | ha
    · exact ⟨_, List.mem_cons_self, hfirst⟩
    · obtain ⟨b, hb, hrelated⟩ := ih ha
      exact ⟨b, List.mem_cons_of_mem _ hb, hrelated⟩

/-- Files that are there or not together, and are texts that are related. -/
def AreTexts (related : String → String → Prop) : Option ByteArray → Option ByteArray → Prop :=
  Option.Rel fun file file' => ∃ text text',
    file = text.toUTF8 ∧ file' = text'.toUTF8 ∧ related text text'

theorem AreTexts.imp {related related' : String → String → Prop} {file file' : Option ByteArray}
    (h : AreTexts related file file')
    (himp : ∀ text text', related text text' → related' text text') :
    AreTexts related' file file' := by
  cases h with
  | none => exact .none
  | some h =>
    obtain ⟨text, text', hfile, hfile', hrelated⟩ := h
    exact .some ⟨text, text', hfile, hfile', himp _ _ hrelated⟩

theorem AreTexts.of_some {related : String → String → Prop} {file : ByteArray}
    {file' : Option ByteArray} (h : AreTexts related (some file) file') :
    ∃ text text', file = text.toUTF8 ∧ related text text' := by
  cases h with
  | some h =>
    obtain ⟨text, text', hfile, _, hrelated⟩ := h
    exact ⟨text, text', hfile, hrelated⟩

/-- The pages with a number of two references that match. -/
theorem State.Matches.areTexts_page {s s' : State} (h : s.Matches s')
    (hassets : HasAssets s.assets) (hassets' : HasAssets s'.assets)
    (hdistinct : (s.pages.toList.map Prod.fst).Nodup) (options options' : HtmlOptions)
    (title title' : String) (id : Nat) :
    AreTexts (SameTags []) ((filesOf options title s).get? (pagePath id))
      ((filesOf options' title' s').get? (pagePath id)) := by
  have hids : s.pages.toList.map Prod.fst = s'.pages.toList.map Prod.fst := by
    have hfirst := List.forall₂_map_left_iff.2 (List.forall₂_map_right_iff.2
      (h.pages.imp fun _ _ hpage => hpage.1))
    exact List.forall₂_eq_eq_eq ▸ hfirst
  by_cases hid : id ∈ s.pages.toList.map Prod.fst
  · obtain ⟨⟨_, page⟩, hpage, rfl⟩ := List.mem_map.1 hid
    obtain ⟨⟨id', page'⟩, hpage', hsame, htags⟩ := exists_of_mem_forall₂ h.pages hpage
    obtain rfl : _ = id' := hsame
    rw [get?_filesOf_page _ _ hassets hdistinct hpage,
      get?_filesOf_page _ _ hassets' (hids ▸ hdistinct) hpage']
    exact .some ⟨page, page', rfl, rfl, htags⟩
  · rw [get?_filesOf_none _ _ hassets hid, get?_filesOf_none _ _ hassets' (hids ▸ hid)]
    exact .none

/-- What two references have in common that differ in what the map and the options say. -/
structure SameReference (files files' : FileSet) : Prop where
  page : ∀ id, AreTexts (SameTags []) (files.get? (pagePath id)) (files'.get? (pagePath id))
  index : ∃ rest rest' : String, SameTags indexVoids rest rest' ∧
    files.get? ⟨"index.html"⟩ = some ("<!DOCTYPE html>" ++ rest).toUTF8 ∧
    files'.get? ⟨"index.html"⟩ = some ("<!DOCTYPE html>" ++ rest').toUTF8

/-- Where a map is exported, it is in other words too, with the same tags. -/
theorem exists_sameReference (hplain : setup.renderer = .plainText) (hf : KeepsParagraphs f)
    {top : Node} {destination : Path} {files : FileSet} {s : Session State}
    (h : (emitter setup).produce top destination = (.ok (.tree files), s))
    (destination' : Path) :
    ∃ files' s', (emitter (setup.reworded f)).produce (top.reworded f) destination' =
        (.ok (.tree files'), s') ∧ SameReference files files' := by
  obtain ⟨a', s', h', hmatch⟩ := exists_produce_reworded hplain hf h destination'
  obtain ⟨hfiles, hassets, hdocuments⟩ := documents_of_produce h
  obtain ⟨rfl, hassets', _⟩ := documents_of_produce h'
  obtain rfl := Artifact.tree.inj hfiles
  have hurl : setup.options.homeUrl.isSome = (setup.reworded f).options.homeUrl.isSome := by
    simp [Setup.reworded]
  refine ⟨_, s', h', fun id => hmatch.areTexts_page hassets hassets' hdocuments.nodup_numbers
    _ _ _ _ id, _, _, alike_indexPage (titleOf setup.options top)
      (titleOf (setup.reworded f).options (top.reworded f)) hurl, ?_, ?_⟩
  · rw [get?_filesOf_index _ _ hassets, renderAll_indexPage]
  · rw [get?_filesOf_index _ _ hassets', renderAll_indexPage]

/-- Whatever a map and the options say, the tags of every page are nested and closed, and so
are those of the index behind its document type, apart from void elements. The same map in
other words, with no mark in them for one, is exported too, and page by page there are the
same marks: none of them is from what the map says. -/
theorem export_nests_tags (setup : Setup) (hplain : setup.renderer = .plainText) {top : Node}
    {destination : Path} {a : Artifact} {s : Session State}
    (h : (emitter setup).produce top destination = (.ok a, s)) :
    ∃ files, a = .tree files ∧
      (∀ id page, files.get? (pagePath id) = some page →
        ∃ text : String, page = text.toUTF8 ∧ IsNested [] text.toList) ∧
      (∃ rest : String, files.get? ⟨"index.html"⟩ = some ("<!DOCTYPE html>" ++ rest).toUTF8 ∧
        IsNested ["meta", "link"] rest.toList) ∧
      ∀ f, KeepsParagraphs f → ∀ destination', ∃ files' s',
        (emitter (setup.reworded f)).produce (top.reworded f) destination' =
          (.ok (.tree files'), s') ∧
        ∀ path, path = ⟨"index.html"⟩ ∨ (∃ id, path = pagePath id) →
          AreTexts (fun text text' => marks text = marks text')
            (files.get? path) (files'.get? path) := by
  obtain ⟨rfl, _, _⟩ := documents_of_produce h
  have hsame {f : String → String} (hf : KeepsParagraphs f) (destination' : Path) :=
    exists_sameReference hplain hf h destination'
  obtain ⟨_, _, _, hpages, rest, _, htags, hindex, _⟩ :=
    hsame (f := fun text => text) (fun _ => rfl) destination
  refine ⟨_, rfl, fun id page hpage => ?_, ⟨rest, hindex, htags.nested⟩,
    fun f hf destination' => ?_⟩
  · have hnested := hpages id
    rw [hpage] at hnested
    obtain ⟨text, _, htext, htags⟩ := hnested.of_some
    exact ⟨text, htext, htags.nested⟩
  · obtain ⟨files', s', h', hpages, rest, rest', htags, hindex, hindex'⟩ := hsame hf destination'
    refine ⟨files', s', h', ?_⟩
    rintro path (rfl | ⟨id, rfl⟩)
    · have hmarks : marks ("<!DOCTYPE html>" ++ rest) = marks ("<!DOCTYPE html>" ++ rest') := by
        rw [marks_append, marks_append, htags.marks_eq]
      rw [hindex, hindex']
      exact .some ⟨_, _, rfl, rfl, hmarks⟩
    · exact (hpages id).imp fun _ _ h => h.marks_eq

/-- A map that has marks in all that it says. -/
def markedMap : Node :=
  let state : Field := { name := "<state", lsb := 0, msb := 3 }
  let off : EnumeratedValue := { name := "<off>", value := 0, desc := some "not \"on\"" }
  let status := (Node.reg "st'>").addField (state.withProperty "encode" (.encode [off]))
  let top := (Node.addrmap "a<b>").withProperty "name" (.text "\"a\" <i>")
  (top.withProperty "desc" (.text "one </p>\n\n'two'")).addChild status

def markedSetup : Setup where
  options := { title := some "<title>", footer := "</footer>", homeUrl := some "\"'>" }
  renderer := .plainText
  view := .empty

/-- Its pages have the same marks as with underscores in their place. -/
theorem export_nests_tags_of_markedMap :
    ∃ files s, (emitter markedSetup).produce markedMap ⟨"a"⟩ = (.ok (.tree files), s) ∧
      (∃ page, files.get? (pagePath 1) = some page ∧
        ∃ text : String, page = text.toUTF8 ∧ IsNested [] text.toList) ∧
      ∃ files' s', (emitter (markedSetup.reworded unmarked)).produce
          (markedMap.reworded unmarked) ⟨"a"⟩ = (.ok (.tree files'), s') ∧
        AreTexts (fun text text' => marks text = marks text')
          (files.get? (pagePath 1)) (files'.get? (pagePath 1)) := by
  have hok : ((emitter markedSetup).produce markedMap ⟨"a"⟩).1.isOk = true := by
    decide +kernel
  have hids : 1 ∈ ((emitter markedSetup).produce markedMap ⟨"a"⟩).2.state.pages.toList.map
      Prod.fst := by
    decide +kernel
  obtain ⟨a, s, hproduce, hs⟩ := (emitter markedSetup).exists_produce_eq_ok hok
  obtain ⟨hfiles, hassets, hdocuments⟩ := documents_of_produce hproduce
  obtain ⟨files, rfl, hpages, _, hreworded⟩ := export_nests_tags markedSetup rfl hproduce
  obtain rfl := Artifact.tree.inj hfiles
  rw [hs] at hids
  obtain ⟨⟨_, page⟩, hmem, rfl⟩ := List.mem_map.1 hids
  have hpage := get?_filesOf_page markedSetup.options (titleOf markedSetup.options markedMap)
    hassets hdocuments.nodup_numbers hmem
  obtain ⟨files', s', hproduce', hmarks⟩ := hreworded unmarked keepsParagraphs_unmarked ⟨"a"⟩
  exact ⟨_, s, hproduce, ⟨_, hpage, hpages _ _ hpage⟩, files', s', hproduce',
    hmarks _ (Or.inr ⟨_, rfl⟩)⟩

end RegisterMap.Html
