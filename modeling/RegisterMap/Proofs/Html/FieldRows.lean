import RegisterMap.Proofs.Html.Descriptions
import RegisterMap.Proofs.Html.PageSections

/-!
The fields of a register, as a visit gathers them: one after the other, each with its bits,
its values and its descriptions, into the last entry of the index and into the rows that wait
for the page of the register. A description leaves nothing behind but assets.
-/

namespace RegisterMap.Html

open ExportM

variable {setup : Setup}

/-! What is shown of a text. -/

/-- A fragment with the sources of its images changed. -/
def Fragment.shown (view : FileView) (f : Fragment) : String :=
  String.ofList ((f.pieces view).flatMap (rewritten view))

/-- What is shown of a text whose images are looked for from a file. A blank text counts as
none. -/
def shownFrom (setup : Setup) (origin : Option Path) (text : Option String) : Option String :=
  (text.filter fun t => !Text.allBlank t.toList).map fun t =>
    Fragment.shown setup.view
      ⟨origin, promoteHeadings setup.options.headingOffset (setup.renderer.render t)⟩

theorem isSome_shownFrom (setup : Setup) (origin : Option Path) (text : Option String) :
    (shownFrom setup origin text).isSome = text.any fun t => !Text.allBlank t.toList := by
  cases text with
  | none => rfl
  | some t => cases hblank : Text.allBlank t.toList <;> simp [shownFrom, Option.filter, hblank]

/-- Two sessions that differ in their assets alone. -/
def DifferInAssets (s t : Session State) : Prop :=
  ∃ assets, t = { s with state := { s.state with assets } }

theorem DifferInAssets.refl (s : Session State) : DifferInAssets s s := ⟨s.state.assets, rfl⟩

theorem DifferInAssets.trans {s t u : Session State} (h : DifferInAssets s t)
    (h' : DifferInAssets t u) : DifferInAssets s u := by
  obtain ⟨_, rfl⟩ := h
  obtain ⟨assets, rfl⟩ := h'
  exact ⟨assets, rfl⟩

/-- A step that shows something and leaves nothing else than assets. -/
def Displays {α : Type} (step : HtmlM α) (shown : α) : Prop :=
  ∀ s a t, Yields step s a t → a = shown ∧ DifferInAssets s t

theorem displays_describe (text : Option String) (origin : Option Path) :
    Displays (describe setup text origin) (shownFrom setup origin text) := by
  intro s desc t h
  unfold shownFrom
  obtain ⟨htext, rfl, rfl⟩ | ⟨given, html, assets, htext, hbundle, rfl, rfl⟩ := describe_cases h
  · rw [htext]
    exact ⟨rfl, .refl _⟩
  · let fragment : Fragment :=
      ⟨origin, promoteHeadings setup.options.headingOffset (setup.renderer.render given)⟩
    have hfragment : bundleImages setup.view fragment.origin fragment.html s.state.assets =
      .ok (html, assets) := hbundle
    have hhtml : html = fragment.shown setup.view := (of_bundleImages hfragment).2.1
    rw [htext]
    exact ⟨congrArg some hhtml, assets, rfl⟩

theorem Displays.mapM {α β : Type} {items : List α} {step : α → HtmlM β} {shown : α → β}
    (h : ∀ item, Displays (step item) (shown item)) :
    Displays (items.mapM step) (items.map shown) := by
  induction items with
  | nil =>
    intro s a t hstep
    obtain ⟨rfl, rfl⟩ := yields_pure.1 hstep
    exact ⟨rfl, .refl _⟩
  | cons item rest ih =>
    intro s a u hstep
    rw [List.mapM_cons] at hstep
    obtain ⟨first, t, hfirst, hstep⟩ := yields_bind.1 hstep
    obtain ⟨others, t', hothers, hstep⟩ := yields_bind.1 hstep
    obtain ⟨rfl, rfl⟩ := yields_pure.1 hstep
    obtain ⟨rfl, hsame⟩ := h item _ _ _ hfirst
    obtain ⟨rfl, hsame'⟩ := ih _ _ _ hothers
    exact ⟨rfl, hsame.trans hsame'⟩

/-! One field. -/

/-- A field in the index. -/
def indexField (f : Field) : IndexField where
  name := f.name
  lsb := f.lsb
  msb := f.msb
  reset := f.reset?.getD 0
  access := f.accessCode.word
  encode := (f.encode?.getD []).map fun value => (value.name, value.value)

/-- A value of a field, described from a file. -/
def encodeRow (setup : Setup) (origin : Option Path) (value : EnumeratedValue) : EncodeRow where
  name := value.name
  value := value.value
  desc := shownFrom setup origin value.desc

/-- A field on the page of its register, described from a file. -/
def fieldRow (setup : Setup) (origin : Option Path) (f : Field) : FieldRow where
  name := f.name
  lsb := f.lsb
  msb := f.msb
  access := f.accessCode.word
  reset := f.reset?
  displayName := f.displayName?
  desc := shownFrom setup origin f.desc?
  encode := (f.encode?.getD []).map (encodeRow setup origin)

/-- Whether there is more to tell about a field than its row does. -/
def hasDetails (f : Field) : Bool :=
  (f.desc?.any fun t => !Text.allBlank t.toList) || !(f.encode?.getD []).isEmpty

theorem hasMore_fieldRow (setup : Setup) (origin : Option Path) (f : Field) :
    (fieldRow setup origin f).hasMore = hasDetails f := by
  have hdesc : (fieldRow setup origin f).desc.isNone =
      !(f.desc?.any fun t => !Text.allBlank t.toList) := by
    rw [← isSome_shownFrom setup origin, Option.not_isSome]
    rfl
  have hencode : (fieldRow setup origin f).encode.isEmpty = (f.encode?.getD []).isEmpty :=
    List.isEmpty_map
  rw [FieldRow.hasMore, hdesc, hencode, hasDetails, Bool.not_and, Bool.not_not]

/-! What a page shows of a field. -/

/-- A field in the row that it has on the page of its register. -/
def shownField (f : Field) : ShownField where
  name := f.name
  msb := f.msb
  lsb := f.lsb
  access := f.accessCode.word
  reset := f.reset?
  displayName := f.displayName?.getD ""

/-- A value in its row of a section, described from a file. -/
def shownValue (setup : Setup) (origin : Option Path) (value : EnumeratedValue) : ShownValue where
  name := value.name
  value := value.value
  desc := (shownFrom setup origin value.desc).getD ""

/-- A field in the section that it has, described from a file. -/
def shownSection (setup : Setup) (origin : Option Path) (f : Field) : ShownSection where
  name := f.name
  msb := f.msb
  lsb := f.lsb
  descs := (shownFrom setup origin f.desc?).toList
  values := (f.encode?.getD []).map (shownValue setup origin)

theorem shown_fieldRow (setup : Setup) (origin : Option Path) (f : Field) :
    (fieldRow setup origin f).shown = shownField f :=
  rfl

theorem shownSection_fieldRow (setup : Setup) (origin : Option Path) (f : Field) :
    (fieldRow setup origin f).shownSection = shownSection setup origin f := by
  have hvalues : (fieldRow setup origin f).encode.map EncodeRow.shown =
      (f.encode?.getD []).map (shownValue setup origin) :=
    List.map_map
  rw [FieldRow.shownSection, hvalues]
  rfl

theorem displays_encodeRow (origin : Option Path) (value : EnumeratedValue) :
    Displays (do
      let desc ← describe setup value.desc origin
      return ({ name := value.name, value := value.value, desc } : EncodeRow) : HtmlM EncodeRow)
        (encodeRow setup origin value) := by
  intro s row t h
  obtain ⟨desc, t', hdesc, h⟩ := yields_bind.1 h
  obtain ⟨rfl, rfl⟩ := yields_pure.1 h
  obtain ⟨rfl, hsame⟩ := displays_describe _ _ _ _ _ hdesc
  exact ⟨rfl, hsame⟩

/-- A field is put into the index and the rows, described from the file of the innermost
node. -/
theorem of_visitField {f : Field} {s t : Session State} {u : Unit}
    (h : Yields (visitField setup f f.accessCode) s u t) :
    ∃ assets, t = { s with state :=
      { ({ s.state with assets } : State).addField (indexField f) with
        fieldRows := s.state.fieldRows.push (fieldRow setup s.state.source f) } } := by
  obtain ⟨built, t₁, hbuilt, h⟩ := yields_bind.1 h
  obtain ⟨rfl, rfl⟩ := yields_built.1 hbuilt
  obtain ⟨desc, t₂, hdesc, h⟩ := yields_bind.1 h
  obtain ⟨rfl, hsame⟩ := displays_describe _ _ _ _ _ hdesc
  obtain ⟨encode, t₃, hencode, h⟩ := yields_bind.1 h
  obtain ⟨rfl, hsame'⟩ := Displays.mapM (displays_encodeRow _) _ _ _ hencode
  obtain ⟨assets, rfl⟩ := hsame.trans hsame'
  obtain rfl := yields_build.1 h
  refine ⟨assets, ?_⟩
  have hvalues : ((f.encode?.getD []).map (encodeRow setup s.state.source)).map
      (fun v => (v.name, v.value)) = (f.encode?.getD []).map fun v => (v.name, v.value) :=
    List.map_map
  simp only [hvalues]
  rfl

/-! All fields of a register. -/

/-- What the index says about fields, entry by entry. -/
def State.fieldLists (s : State) : List (Option (List IndexField)) :=
  s.index.toList.map IndexEntry.fields

theorem State.fieldLists_addField (s : State) {front : List (Option (List IndexField))}
    {fields : List IndexField} (hparent : s.parents.head? = some front.length)
    (hlast : s.fieldLists = front ++ [some fields]) (field : IndexField) :
    (s.addField field).fieldLists = front ++ [some (fields ++ [field])] := by
  have hadd : (s.addField field).fieldLists =
      s.fieldLists.modify front.length (Option.map (· ++ [field])) := by
    rw [addField, hparent]
    simp only [fieldLists, Array.toList_modify]
    exact map_modify _ _ fun _ => rfl
  rw [hadd, hlast, modify_last _ _ rfl]
  rfl

/-- A session in which a register is being visited that was entered in another one, and some
of its fields have been met. The last entry of the index is that of the register. -/
structure Gathers (setup : Setup) (origin : Option Path) (before : Session State)
    (fields : List Field) (s : Session State) : Prop where
  fieldLists_eq : s.state.fieldLists = before.state.fieldLists ++ [some (fields.map indexField)]
  fieldRows_eq : s.state.fieldRows.toList = fields.map (fieldRow setup origin)
  parent_eq : s.state.parents.head? = some before.state.fieldLists.length
  sources_eq : s.state.sources = origin :: before.state.sources
  pages_eq : s.state.pages = before.state.pages
  nextId_eq : s.nextId = before.nextId + 1

theorem Gathers.visitField {origin : Option Path} {before s t : Session State}
    {fields : List Field} {f : Field} {u : Unit} (h : Gathers setup origin before fields s)
    (hstep : Yields (visitField setup f f.accessCode) s u t) :
    Gathers setup origin before (fields ++ [f]) t := by
  obtain ⟨assets, rfl⟩ := of_visitField hstep
  have hsource : s.state.source = origin := by rw [State.source, h.sources_eq]; rfl
  have hkeeps : ∀ state : State, (state.addField (indexField f)).parents = state.parents ∧
      (state.addField (indexField f)).sources = state.sources ∧
      (state.addField (indexField f)).pages = state.pages := by
    intro state
    unfold State.addField
    split <;> exact ⟨rfl, rfl, rfl⟩
  obtain ⟨hparents, hsources, hpages⟩ := hkeeps { s.state with assets }
  refine ⟨?_, ?_, ?_, hsources.trans h.sources_eq, hpages.trans h.pages_eq, h.nextId_eq⟩
  · rw [List.map_append]
    exact State.fieldLists_addField { s.state with assets } h.parent_eq h.fieldLists_eq _
  · rw [Array.toList_push, h.fieldRows_eq, hsource, List.map_append]
    rfl
  · exact (congrArg List.head? hparents).trans h.parent_eq

theorem Gathers.forM {origin : Option Path} {before s t : Session State}
    {fields more : List Field} {u : Unit} (h : Gathers setup origin before fields s)
    (hsteps : Yields (forM more fun f => Html.visitField setup f f.accessCode) s u t) :
    Gathers setup origin before (fields ++ more) t := by
  induction more generalizing fields s with
  | nil =>
    obtain ⟨_, rfl⟩ := yields_pure.1 hsteps
    rwa [List.append_nil]
  | cons f rest ih =>
    rw [List.forM_cons] at hsteps
    obtain ⟨_, t', hfirst, hrest⟩ := yields_bind.1 hsteps
    rw [List.append_cons]
    exact ih (h.visitField hfirst) hrest

end RegisterMap.Html
