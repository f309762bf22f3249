import RegisterMap.Proofs.Guards
import RegisterMap.Proofs.Html.Files
import RegisterMap.Proofs.Html.PlainText

/-!
What the steps of a reference leave among its assets: images only. A step stops
for nothing but an address or a size that is no word, a register array that
overlaps, or an image that cannot be read.
-/

namespace RegisterMap.Html

open ExportM

variable {may : Stop → Prop} {setup : Setup}

/-- All assets that are collected so far are images. -/
def Collecting (_ : Unit) (s : State) : Prop := HasAssets s.assets

/-- That an image of a description cannot be read is among the reasons. -/
def MayMissImages (setup : Setup) (may : Stop → Prop) : Prop :=
  ∀ origin text assets e,
    bundleImages setup.view origin
        (promoteHeadings setup.options.headingOffset (setup.renderer.render text)) assets =
      .error e → may (.failed e)

/-- A description that is plain text has no images. -/
theorem mayMissImages_plainText (h : setup.renderer = .plainText) : MayMissImages setup may := by
  intro origin text assets e herror
  rw [h] at herror
  simp only [Renderer.render] at herror
  rw [promoteHeadings_plainText, bundleImages_plainText] at herror
  cases herror

theorem settles_describe (himages : MayMissImages setup may) (text : Option String)
    (origin : Option Path) : Settles Collecting (describe setup text origin) True may := by
  unfold describe
  cases text.filter fun t => !Text.allBlank t.toList with
  | none => exact .pure none
  | some text =>
    apply Settles.built_bind
    intro i s hs
    cases hbundle : bundleImages setup.view origin
        (promoteHeadings setup.options.headingOffset (setup.renderer.render text)) s.assets with
    | error e => exact .fail (himages origin text s.assets e hbundle)
    | ok bundled =>
      obtain ⟨html, assets⟩ := bundled
      have hkept : HasAssets assets := HasAssets.bundleImages hs hbundle
      exact Ensures.bind (m := fun _ t => Collecting i t) (.build fun _ _ => hkept) fun _ =>
        .pure fun _ ht => ⟨ht, trivial⟩

/-- A change that leaves the assets alone. -/
theorem settles_build {f : State → State} (h : ∀ s, (f s).assets = s.assets) :
    Settles Collecting (build f) True may := by
  refine .build fun _ s hs => ?_
  unfold Collecting at hs ⊢
  rwa [h]

theorem settles_visitNode (hoverflow : may .overflow) (himages : MayMissImages setup may)
    (e : Element) {inside : HtmlM Unit} {fact : Prop}
    (hinside : Settles Collecting inside fact may) :
    Settles Collecting (visitNode setup e inside) fact may := by
  refine (Settles.of_keeps fun _ => .takeId).next fun _ id =>
    (Settles.checked hoverflow).next fun _ size => Settles.built.next fun _ before => ?_
  extract_lets source
  refine (settles_build fun _ => by rfl).next fun _ _ =>
    (settles_build fun _ => by rfl).next fun _ _ =>
    hinside.next fun hfact _ =>
    (settles_build fun _ => by rfl).next fun _ _ =>
    (settles_describe himages _ _).next fun _ desc => Settles.built.next fun _ after => ?_
  extract_lets page
  refine (settles_build fun _ => by rfl).next fun _ _ => ?_
  split
  · exact (settles_build fun _ => by rfl).imp fun _ => hfact
  · exact Settles.skip.imp fun _ => hfact

theorem settles_visitField (himages : MayMissImages setup may) (f : Field) (access : AccessCode) :
    Settles Collecting (visitField setup f access) True may :=
  Settles.built.next fun _ _ => (settles_describe himages _ _).next fun _ _ =>
    (Settles.mapM fun _ => (settles_describe himages _ _).next fun _ _ => .pure _).next fun _ _ =>
    settles_build fun s => by
      unfold State.addField
      split <;> rfl

theorem guards (hoverflow : may .overflow) (himages : MayMissImages setup may) :
    (emitter setup).Guards Collecting Collecting (fun _ => True) may where
  overflow := hoverflow
  single _ _ := trivial
  start _ := ⟨(), .pure fun a ha => by
    rw [ha]
    exact hasAssets_empty⟩
  block e _ _ _ hinside := settles_visitNode hoverflow himages e hinside
  registerFile _ e _ _ hinside :=
    (settles_visitNode hoverflow himages e hinside).imp fun hfact => ⟨hfact, trivial⟩
  register _ e _ hmay hinside :=
    (settles_checkRegisterArray hmay).next fun hspaced _ =>
      (settles_visitNode hoverflow himages e hinside).imp fun _ => ⟨hspaced, trivial⟩
  memory _ e := settles_visitNode hoverflow himages e .skip
  field f access _ := settles_visitField himages f access
  finish _ _ := .built_bind fun _ _ => (Ensures.debug _).bind fun _ => .pure fun _ _ => trivial

end RegisterMap.Html
