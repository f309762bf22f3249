import RegisterMap.Proofs.Html.Reference

/-!
The descriptions of a map, as they are bundled one after the other into one set of assets.
What a description leaves there depends on the images that are found in it, in their order:
of each file that can be read a copy is put in, unless there is one under its name. An export
bundles the descriptions of a node behind those of all below it.
-/

namespace RegisterMap.Html

open ExportM

/-- A description as markup, with the file that it is from. -/
structure Fragment where
  origin : Option Path
  html : String

namespace Fragment

variable (view : FileView)

def pieces (f : Fragment) : List (Piece FoundImage) :=
  cut (foundImage? view f.origin) 0 f.html.toList

end Fragment

/-- The image of a piece that is one. -/
def Piece.image? : Piece FoundImage → Option FoundImage
  | .char _ => none
  | .tag image => some image

/-- The images that are found in a description. -/
def Fragment.images (view : FileView) (f : Fragment) : List FoundImage :=
  (f.pieces view).filterMap Piece.image?

/-! One description. -/

/-- The source that an image gets, where its file can be read. -/
def newSource (view : FileView) (image : FoundImage) : List Char :=
  match view.read? image.file with
  | some content => sourceOf (assetPath content image.file)
  | none => image.source.value

/-- A piece with the source of its image changed. -/
def rewritten (view : FileView) : Piece FoundImage → List Char
  | .char c => [c]
  | .tag image => image.source.before ++ newSource view image ++ image.source.after

/-- The assets with the files of some images, up to the first that cannot be read. -/
def keepImages (view : FileView) (assets : FileSet) : List FoundImage → FileSet
  | [] => assets
  | image :: rest =>
    match view.read? image.file with
    | none => assets
    | some content => keepImages view (assets.insertNew (assetPath content image.file) content) rest

/-- The assets that a description leaves. Where an image cannot be read, the ones in front of
it have been put in. -/
def Fragment.leave (view : FileView) (assets : FileSet) (f : Fragment) : FileSet :=
  keepImages view assets (f.images view)

/-- The assets that some descriptions leave, one after the other. -/
def leftBy (view : FileView) (fragments : List Fragment) : FileSet :=
  fragments.foldl (Fragment.leave view) {}

section Pieces

variable {view : FileView} {assets result : FileSet}

/-- Pieces that come out well have images that can be read, all of which are put in. -/
theorem of_bundlePieces {pieces : List (Piece FoundImage)} {chars : List Char}
    (h : bundlePieces view assets pieces = .ok (chars, result)) :
    (∀ image ∈ pieces.filterMap Piece.image?, (view.read? image.file).isSome = true) ∧
      chars = pieces.flatMap (rewritten view) ∧
      result = keepImages view assets (pieces.filterMap Piece.image?) := by
  induction pieces generalizing assets chars with
  | nil =>
    cases h
    exact ⟨nofun, rfl, rfl⟩
  | cons piece rest ih =>
    obtain ⟨front, next, back, hpiece, hback, rfl⟩ := bundlePieces_cons_eq_ok h
    obtain ⟨hreads, rfl, rfl⟩ := ih hback
    cases piece with
    | char c =>
      cases hpiece
      exact ⟨hreads, rfl, rfl⟩
    | tag image =>
      obtain ⟨content, hcontent, rfl, rfl⟩ := bundlePiece_tag_eq_ok hpiece
      refine ⟨List.forall_mem_cons.2 ⟨?_, hreads⟩, ?_, ?_⟩
      · rw [hcontent, Option.isSome_some]
      · rw [List.flatMap_cons, rewritten, newSource, hcontent]
      · rw [List.filterMap_cons, Piece.image?, keepImages, hcontent]

/-- A description that comes out well changes the sources of its images, all of which can be
read. -/
theorem of_bundleImages {f : Fragment} {html : String}
    (h : bundleImages view f.origin f.html assets = .ok (html, result)) :
    (∀ image ∈ f.images view, (view.read? image.file).isSome = true) ∧
      html = String.ofList ((f.pieces view).flatMap (rewritten view)) ∧
      result = f.leave view assets := by
  obtain ⟨chars, hpieces, rfl⟩ := bundleImages_eq_ok h
  obtain ⟨hreads, rfl, rfl⟩ := of_bundlePieces hpieces
  exact ⟨hreads, rfl, rfl⟩

end Pieces

/-! Descriptions in a row. -/

/-- Some descriptions that all come out well, and the assets that they lead to. -/
inductive Bundled (view : FileView) : FileSet → List Fragment → FileSet → Prop
  | nil (assets : FileSet) : Bundled view assets [] assets
  | cons {assets next result : FileSet} {f : Fragment} {rest : List Fragment} {html : String}
      (first : bundleImages view f.origin f.html assets = .ok (html, next))
      (others : Bundled view next rest result) : Bundled view assets (f :: rest) result

namespace Bundled

variable {view : FileView} {assets next result : FileSet} {fs gs : List Fragment}

theorem append (h : Bundled view assets fs next) (h' : Bundled view next gs result) :
    Bundled view assets (fs ++ gs) result := by
  induction h with
  | nil => exact h'
  | cons first _ ih => exact .cons first (ih h')

theorem eq_foldl (h : Bundled view assets fs result) :
    result = fs.foldl (Fragment.leave view) assets := by
  induction h with
  | nil => rfl
  | cons first _ ih => rw [ih, List.foldl_cons, (of_bundleImages first).2.2]

end Bundled

/-! The descriptions of a map. -/

variable (setup : Setup)

/-- A description that is not blank. -/
def described (text : Option String) (origin : Option Path) : List Fragment :=
  (text.filter fun t => !Text.allBlank t.toList).toList.map fun t =>
    ⟨origin, promoteHeadings setup.options.headingOffset (setup.renderer.render t)⟩

/-- The descriptions of a field and of its values. -/
def fieldFragments (origin : Option Path) (f : Field) : List Fragment :=
  described setup f.desc? origin ++
    (f.encode?.getD []).flatMap fun value => described setup value.desc origin

mutual

/-- The descriptions of a node and of all that is met in it. -/
def nodeFragments (origin : Option Path) : Node → List Fragment
  | n@{ kind, children, .. } =>
    (match kind with
      | .addrmap | .regfile => nodesFragments (n.source.or origin) children
      | .reg => (n.metFields (walkOptions setup.options)).flatMap
          (fieldFragments setup (n.source.or origin))
      | .mem => []) ++
      described setup n.desc? (n.source.or origin)

def nodesFragments (origin : Option Path) : List Node → List Fragment
  | [] => []
  | n :: rest =>
    (if n.isSkipped (walkOptions setup.options) then [] else nodeFragments origin n) ++
      nodesFragments origin rest

end

variable {setup}

theorem nodesFragments_eq (origin : Option Path) (nodes : List Node) :
    nodesFragments setup origin nodes = nodes.flatMap fun n =>
      if n.isSkipped (walkOptions setup.options) then [] else nodeFragments setup origin n := by
  induction nodes with
  | nil => rfl
  | cons n rest ih => rw [nodesFragments, ih, List.flatMap_cons]

/-- The descriptions of the elements right below one. -/
theorem flatMap_nodeFragments (origin : Option Path) (e : Element) :
    ((e.children (walkOptions setup.options)).flatMap fun c =>
        nodeFragments setup origin c.node) = nodesFragments setup origin e.node.children := by
  have hroll : (walkOptions setup.options).unroll = false := rfl
  rw [nodesFragments_eq, ← Element.flatMap_children hroll e fun n hn => by rw [if_pos hn]]
  refine List.flatMap_congr fun c hc => ?_
  rw [Element.isSkipped_of_mem_children hc, if_neg Bool.false_ne_true]

/-! Steps that bundle descriptions. -/

/-- A step that bundles some descriptions, where the innermost node being visited is from a
certain file. -/
def Bundles {α : Type} (setup : Setup) (step : HtmlM α) (origin : Option Path)
    (fragments : List Fragment) : Prop :=
  ∀ s a t, s.state.source = origin → Yields step s a t →
    t.state.sources = s.state.sources ∧
      Bundled setup.view s.state.assets fragments t.state.assets

namespace Bundles

variable {α β : Type} {origin : Option Path} {fs gs : List Fragment}

theorem of_yields {step : HtmlM α} {s t : Session State} {a : α} (hstep : Yields step s a t)
    (hsource : s.state.source = origin) (h : Bundles setup step origin fs) :
    t.state.sources = s.state.sources ∧ Bundled setup.view s.state.assets fs t.state.assets :=
  h s a t hsource hstep

theorem pure (a : α) : Bundles setup (Pure.pure a) origin [] := by
  intro s b t _ h
  obtain ⟨_, rfl⟩ := yields_pure.1 h
  exact ⟨rfl, .nil _⟩

theorem bind {step : HtmlM α} {next : α → HtmlM β} (hstep : Bundles setup step origin fs)
    (hnext : ∀ a, Bundles setup (next a) origin gs) :
    Bundles setup (step >>= next) origin (fs ++ gs) := by
  intro s b u hsource h
  obtain ⟨a, t, hfirst, hrest⟩ := yields_bind.1 h
  obtain ⟨hsources, hbundled⟩ := hstep s a t hsource hfirst
  have hsame : t.state.source = origin := by rw [State.source, hsources, ← hsource, State.source]
  obtain ⟨hsources', hbundled'⟩ := hnext a t b u hsame hrest
  exact ⟨hsources'.trans hsources, hbundled.append hbundled'⟩

/-- What follows a description without bundling another. -/
theorem before {step : HtmlM α} {next : α → HtmlM β} (hstep : Bundles setup step origin fs)
    (hnext : ∀ a, Bundles setup (next a) origin []) : Bundles setup (step >>= next) origin fs := by
  rw [← List.append_nil fs]
  exact hstep.bind hnext

/-- What comes before a description without bundling another. -/
theorem after {step : HtmlM α} {next : α → HtmlM β} (hstep : Bundles setup step origin [])
    (hnext : ∀ a, Bundles setup (next a) origin fs) : Bundles setup (step >>= next) origin fs :=
  hstep.bind hnext

/-- A look at what is built, which tells the file of the innermost node. -/
theorem built_bind {next : State → HtmlM α}
    (h : ∀ state, state.source = origin → Bundles setup (next state) origin fs) :
    Bundles setup (ExportM.built >>= next) origin fs := by
  intro s a u hsource hstep
  obtain ⟨state, t, hbuilt, hrest⟩ := yields_bind.1 hstep
  obtain ⟨rfl, rfl⟩ := yields_built.1 hbuilt
  exact h s.state hsource s a u hsource hrest

theorem build {f : State → State} (hsources : ∀ s, (f s).sources = s.sources)
    (hassets : ∀ s, (f s).assets = s.assets) : Bundles setup (ExportM.build f) origin [] := by
  intro s _ t _ h
  obtain rfl := yields_build.1 h
  exact ⟨hsources s.state, hassets s.state ▸ .nil _⟩

theorem forM {items : List β} {step : β → HtmlM Unit} {fragments : β → List Fragment}
    (h : ∀ b ∈ items, Bundles setup (step b) origin (fragments b)) :
    Bundles setup (forM items step) origin (items.flatMap fragments) := by
  induction items with
  | nil => exact pure ()
  | cons item rest ih =>
    rw [List.forM_cons, List.flatMap_cons]
    exact (h item List.mem_cons_self).bind fun _ =>
      ih fun b hb => h b (List.mem_cons_of_mem item hb)

theorem mapM {items : List β} {step : β → HtmlM α} {fragments : β → List Fragment}
    (h : ∀ b, Bundles setup (step b) origin (fragments b)) :
    Bundles setup (items.mapM step) origin (items.flatMap fragments) := by
  induction items with
  | nil => exact pure []
  | cons item rest ih =>
    rw [List.mapM_cons, List.flatMap_cons]
    exact (h item).bind fun _ => ih.before fun _ => pure _

end Bundles

theorem bundles_describe (text : Option String) (from? origin : Option Path) :
    Bundles setup (describe setup text from?) origin (described setup text from?) := by
  intro s desc t _ h
  unfold described
  obtain ⟨htext, _, rfl⟩ | ⟨given, html, assets, htext, hbundle, _, rfl⟩ := describe_cases h
  · rw [htext]
    exact ⟨rfl, .nil _⟩
  · rw [htext]
    exact ⟨rfl, .cons hbundle (.nil _)⟩

theorem bundles_visitField (f : Field) (access : AccessCode) (origin : Option Path) :
    Bundles setup (visitField setup f access) origin (fieldFragments setup origin f) := by
  unfold fieldFragments
  refine .built_bind fun state hsource => ?_
  rw [hsource]
  refine .bind (bundles_describe _ _ _) fun desc => .before (.mapM fun value => ?_) fun encode => ?_
  · exact .before (bundles_describe _ _ _) fun _ => .pure _
  · exact .build (fun s => by unfold State.addField; split <;> rfl)
      fun s => by unfold State.addField; split <;> rfl

/-- A node is described behind all that is inside it. -/
theorem bundles_visitNode {e : Element} {inside : HtmlM Unit} {origin : Option Path}
    {fs : List Fragment} (h : Bundles setup inside (e.node.source.or origin) fs) :
    Bundles setup (visitNode setup e inside) origin
      (fs ++ described setup e.node.desc? (e.node.source.or origin)) := by
  intro s _ u hsource hvisit
  obtain ⟨size, t, _, hinside, hleave⟩ := yields_visitNode hvisit
  rw [hsource] at hinside hleave
  obtain ⟨hsources, hbundled⟩ := h _ _ _ rfl hinside
  obtain ⟨desc, t', hdescribe, rfl⟩ := leaveNode_cases hleave
  have hsame : t.state.sources.tail.head?.join = origin := by
    rw [hsources]
    exact hsource
  obtain ⟨hkept, hdescribed⟩ := (bundles_describe _ _ _).of_yields hdescribe hsame
  exact ⟨hkept.trans (by rw [hsources]; rfl), hbundled.append hdescribed⟩

theorem bundles_checkRegisterArray (e : Element) (origin : Option Path) :
    Bundles setup (checkRegisterArray e) origin [] := by
  intro s _ t _ h
  obtain ⟨_, _, rfl⟩ := yields_checkRegisterArray.1 h
  rw [Session.state_tellGap]
  exact ⟨rfl, .nil _⟩

theorem bundles_needing {e : Element} {step : HtmlM Unit} {origin : Option Path}
    {fs : List Fragment} (h : Bundles setup step origin fs) :
    Bundles setup ((emitter setup).needing e e.node.children step) origin fs :=
  fun s _ t hsource hstep => h s () t hsource ((emitter setup).yields_needing.1 hstep).2

theorem nodeFragments_eq (origin : Option Path) (n : Node) :
    nodeFragments setup origin n =
      (match n.kind with
        | .addrmap | .regfile => nodesFragments setup (n.source.or origin) n.children
        | .reg => (n.metFields (walkOptions setup.options)).flatMap
            (fieldFragments setup (n.source.or origin))
        | .mem => []) ++
        described setup n.desc? (n.source.or origin) := by
  cases n with
  | mk name kind offset size array properties children fields source =>
    rw [nodeFragments.eq_def]
    cases kind <;> rfl

theorem bundles_below {e : Element} (origin : Option Path)
    (h : ∀ c ∈ e.children (walkOptions setup.options), ∀ parent origin,
      Bundles setup ((emitter setup).meet parent c) origin (nodeFragments setup origin c.node)) :
    Bundles setup ((emitter setup).below e) origin
      (nodesFragments setup origin e.node.children) := by
  rw [Emitter.below_eq, ← flatMap_nodeFragments]
  exact bundles_needing (.forM fun c hc => h c hc e origin)

/-- From an element downwards all descriptions are bundled. -/
theorem bundles_meet (e : Element) (hvalid : e.node.IsValid) : ∀ parent origin,
    Bundles setup ((emitter setup).meet parent e) origin (nodeFragments setup origin e.node) := by
  induction e using Element.induction (walkOptions setup.options) with
  | step e ih =>
    intro parent origin
    have hbelow := bundles_below (e.node.source.or origin) fun c hc =>
      ih c hc (Element.isValid_of_mem_children hvalid hc)
    rw [nodeFragments_eq]
    cases hkind : e.node.kind with
    | addrmap =>
      rw [Emitter.meet_of_container _ (Or.inl hkind)]
      exact bundles_visitNode hbelow
    | regfile =>
      rw [Emitter.meet_of_container _ (Or.inr hkind)]
      exact bundles_visitNode hbelow
    | reg =>
      rw [Emitter.meet_of_register _ hkind]
      exact .after (bundles_checkRegisterArray e origin) fun _ =>
        bundles_visitNode (.forM fun f _ => bundles_visitField f f.accessCode _)
    | mem =>
      rw [Emitter.meet_of_memory _ hkind]
      exact bundles_visitNode (.pure ())

/-- A finished reference has bundled all descriptions of its map, one after the other. -/
theorem bundled_of_produce {top : Node} {destination : Path} {a : Artifact} {s : Session State}
    (h : (emitter setup).produce top destination = (.ok a, s)) :
    Bundled setup.view {} (nodeFragments setup none top) s.state.assets := by
  obtain ⟨⟨hkind, hvalid⟩, t, hvisit, _, rfl⟩ := produce_eq_ok_iff_visit.1 h
  have htop := Node.isValid_of_validate hvalid
  have hbelow : Bundles setup ((emitter setup).below (.top top)) (top.source.or none)
      (nodesFragments setup (top.source.or none) top.children) :=
    bundles_below _ fun c hc => bundles_meet c (Element.isValid_of_mem_children htop hc)
  obtain ⟨_, hbundled⟩ := bundles_visitNode hbelow _ _ _ rfl hvisit
  rw [nodeFragments_eq]
  cases hn : top.kind with
  | addrmap => exact hbundled
  | regfile => exact hbundled
  | reg => simp [hn, Kind.canBeTop] at hkind
  | mem =>
    have hnone : nodesFragments setup (top.source.or none) top.children = [] := by
      rw [htop.children_of_memory hn, nodesFragments]
    rwa [Element.top, hnone] at hbundled

end RegisterMap.Html
