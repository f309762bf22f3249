import RegisterMap.Proofs.Html.Bundling
import RegisterMap.Proofs.Html.Descriptions
import RegisterMap.Proofs.Text.SplitsOff

/-!
Images of a whole reference. All descriptions share one set of assets, in which the first file
under a name stays; files of different contents have different names there, unless the digits
in front and their own names are the same. So what a source is changed to leads to the bytes of
the file that it was found in, when the description is bundled and for ever after. In the
finished tree no image takes the place of a page or of a file that all references share.
-/

namespace RegisterMap.Html

variable {view : FileView}

/-! Paths of images. -/

theorem assetPath_congr {content : ByteArray} {file other : Path}
    (h : file.fileName? = other.fileName?) : assetPath content file = assetPath content other := by
  rw [assetPath, assetPath, assetName, assetName, h]

/-- Images under one path have the same digits and the same name. -/
theorem digits_and_name_of_order {c d : ByteArray} {file other : Path}
    (h : Path.order (assetPath c file) (assetPath d other) = .eq) :
    digestDigits c = digestDigits d ∧ file.fileName? = other.fileName? := by
  have hsame := Path.components_eq_of_order h
  rw [components_assetPath, components_assetPath] at hsame
  simp only [List.cons.injEq, Path.Component.named.injEq, true_and, and_true] at hsame
  have hchars := congrArg String.toList hsame
  rw [toList_assetName, toList_assetName] at hchars
  -- The underscore behind the digits is none of them.
  have hdigit (content : ByteArray) : ∀ c ∈ digestDigits content, (c != '_') = true := by
    intro c hc
    rw [bne_iff_ne]
    rintro rfl
    exact not_mem_digestDigits (by decide) content hc
  have hstops (rest : List Char) : Text.Stops (· != '_') ('_' :: rest) :=
    Text.stops_cons (by decide) rest
  obtain ⟨hdigits, hrest⟩ :=
    Text.append_cancel_of_stops (hdigit c) (hdigit d) (hstops _) (hstops _) hchars
  exact ⟨hdigits, Path.fileName?_eq_of_getD_eq (String.toList_inj.1 (List.cons.inj hrest).2)⟩

/-! Sequences of descriptions. -/

/-- The images that are found in some descriptions. -/
def imagesOf (view : FileView) (fragments : List Fragment) : List FoundImage :=
  fragments.flatMap (Fragment.images view)

/-- No image has a name with a backslash. -/
def HavePlainNames (images : List FoundImage) : Prop :=
  ∀ image ∈ images, '\\' ∉ (image.file.fileName?.getD "").toList

/-- Images of different contents differ in their names or in the digits in front of them. -/
def AreApart (view : FileView) (images : List FoundImage) : Prop :=
  ∀ i ∈ images, ∀ j ∈ images, ∀ c d, view.read? i.file = some c → view.read? j.file = some d →
    i.file.fileName? = j.file.fileName? → digestDigits c = digestDigits d → c = d

/-- All files of a set are copies of some images, each under its own path. -/
def HoldsCopies (view : FileView) (images : List FoundImage) (s : FileSet) : Prop :=
  ∀ path content, (path, content) ∈ s.files →
    ∃ image ∈ images, view.read? image.file = some content ∧ path = assetPath content image.file

section Copies

variable {all images : List FoundImage} {image : FoundImage} {content : ByteArray} {s : FileSet}

theorem holdsCopies_empty : HoldsCopies view all {} := by
  intro path content h
  cases h

theorem HoldsCopies.insertNew (h : HoldsCopies view all s) (himage : image ∈ all)
    (hcontent : view.read? image.file = some content) :
    HoldsCopies view all (s.insertNew (assetPath content image.file) content) := by
  intro path bytes hfile
  rcases FileSet.of_mem_files_insertNew hfile with hnew | hthere
  · obtain ⟨hpath, rfl⟩ := Prod.mk.inj hnew
    exact ⟨image, himage, hcontent, hpath⟩
  · exact h path bytes hthere

/-- The copy of an image has its own bytes, whether it is new or not. -/
theorem HoldsCopies.mem_insertNew (h : HoldsCopies view all s) (hapart : AreApart view all)
    (himage : image ∈ all) (hcontent : view.read? image.file = some content) :
    (assetPath content image.file, content) ∈
      (s.insertNew (assetPath content image.file) content).files := by
  unfold FileSet.insertNew
  split
  case isFalse hnone => exact (FileSet.mem_files_insert_iff (by simpa using hnone)).2 (Or.inl rfl)
  case isTrue hthere =>
    obtain ⟨bytes, hbytes⟩ := Option.isSome_iff_exists.1 hthere
    obtain ⟨key, hkey, hsame⟩ := FileSet.exists_mem_files_of_get? hbytes
    obtain ⟨other, hother, hread, rfl⟩ := h key bytes hkey
    obtain ⟨hdigits, hname⟩ := digits_and_name_of_order hsame
    obtain rfl := hapart other hother image himage bytes content hread hcontent hname hdigits
    rwa [assetPath_congr hname] at hkey

theorem mem_keepImages_of_mem {asset : Path × ByteArray} (h : asset ∈ s.files) :
    asset ∈ (keepImages view s images).files := by
  induction images generalizing s with
  | nil => exact h
  | cons image rest ih =>
    rw [keepImages]
    split
    · exact h
    · exact ih (FileSet.mem_files_insertNew_of_mem h)

theorem HoldsCopies.keepImages (h : HoldsCopies view all s) (himages : ∀ i ∈ images, i ∈ all) :
    HoldsCopies view all (keepImages view s images) := by
  induction images generalizing s with
  | nil => exact h
  | cons image rest ih =>
    obtain ⟨hfirst, hrest⟩ := List.forall_mem_cons.1 himages
    rw [Html.keepImages]
    split
    case h_1 => exact h
    case h_2 content hcontent => exact ih (h.insertNew hfirst hcontent) hrest

/-- Where all images can be read, each has its copy. -/
theorem HoldsCopies.mem_keepImages (h : HoldsCopies view all s) (hapart : AreApart view all)
    (himages : ∀ i ∈ images, i ∈ all)
    (hreads : ∀ i ∈ images, (view.read? i.file).isSome = true) :
    ∀ i ∈ images, ∃ content, view.read? i.file = some content ∧
      (assetPath content i.file, content) ∈ (Html.keepImages view s images).files := by
  induction images generalizing s with
  | nil => nofun
  | cons image rest ih =>
    obtain ⟨hfirst, hrest⟩ := List.forall_mem_cons.1 himages
    obtain ⟨hread, hothers⟩ := List.forall_mem_cons.1 hreads
    obtain ⟨content, hcontent⟩ := Option.isSome_iff_exists.1 hread
    rw [Html.keepImages, hcontent]
    refine List.forall_mem_cons.2 ⟨⟨content, hcontent, ?_⟩, ?_⟩
    · exact mem_keepImages_of_mem (h.mem_insertNew hapart hfirst hcontent)
    · exact ih (h.insertNew hfirst hcontent) hrest hothers

end Copies

section Sequences

variable {fragments before after : List Fragment}

theorem mem_imagesOf_of_mem {f : Fragment} (hf : f ∈ fragments) {image : FoundImage}
    (himage : image ∈ f.images view) : image ∈ imagesOf view fragments :=
  List.mem_flatMap.2 ⟨f, hf, himage⟩

theorem mem_foldl_leave_of_mem {s : FileSet} {asset : Path × ByteArray} (h : asset ∈ s.files) :
    asset ∈ (fragments.foldl (Fragment.leave view) s).files := by
  induction fragments generalizing s with
  | nil => exact h
  | cons f rest ih => exact ih (mem_keepImages_of_mem h)

/-- A description that comes later takes no file away. -/
theorem mem_leftBy_append {asset : Path × ByteArray} (h : asset ∈ (leftBy view before).files) :
    asset ∈ (leftBy view (before ++ after)).files := by
  rw [leftBy, List.foldl_append]
  exact mem_foldl_leave_of_mem h

theorem HoldsCopies.foldl_leave {all : List FoundImage} {s : FileSet}
    (h : HoldsCopies view all s)
    (himages : ∀ f ∈ fragments, ∀ image ∈ f.images view, image ∈ all) :
    HoldsCopies view all (fragments.foldl (Fragment.leave view) s) := by
  induction fragments generalizing s with
  | nil => exact h
  | cons f rest ih =>
    obtain ⟨hfirst, hrest⟩ := List.forall_mem_cons.1 himages
    exact ih (h.keepImages hfirst) hrest

/-- The source that an image gets, as a path, is the one that its copy is found under. -/
theorem path_newSource {image : FoundImage} {content : ByteArray}
    (hcontent : view.read? image.file = some content)
    (hname : '\\' ∉ (image.file.fileName?.getD "").toList) :
    (⟨String.ofList (newSource view image)⟩ : Path) = assetPath content image.file := by
  have hplain : '\\' ∉ (assetPath content image.file).text.toList :=
    not_mem_assetPath (by decide) (by decide) content hname
  simp only [newSource, hcontent]
  rw [sourceOf_of_not_mem hplain, String.ofList_toList]

/-- What some descriptions that share their assets do with their images. -/
structure KeepsBytes (view : FileView) (fragments : List Fragment) : Prop where
  /-- A description that comes out well has sources changed and nothing else. Each new source
  is a path among the assets, with the bytes of the file that was found, and stays so. -/
  bundled : ∀ before f after, fragments = before ++ f :: after → ∀ html assets,
    bundleImages view f.origin f.html (leftBy view before) = .ok (html, assets) →
      html = String.ofList ((f.pieces view).flatMap (rewritten view)) ∧
      assets = leftBy view (before ++ [f]) ∧
      ∀ image ∈ f.images view, ∃ content, view.read? image.file = some content ∧
        (⟨String.ofList (newSource view image)⟩, content) ∈ assets.files ∧
        (⟨String.ofList (newSource view image)⟩, content) ∈ (leftBy view fragments).files
  /-- Images share a path just where they have the same contents and the same name. -/
  shared : ∀ i ∈ imagesOf view fragments, ∀ j ∈ imagesOf view fragments, ∀ c d,
    view.read? i.file = some c → view.read? j.file = some d →
      (newSource view i = newSource view j ↔ c = d ∧ i.file.fileName? = j.file.fileName?)

theorem keepsBytes (hnames : HavePlainNames (imagesOf view fragments))
    (hapart : AreApart view (imagesOf view fragments)) : KeepsBytes view fragments where
  bundled := by
    rintro before f after rfl html assets hbundle
    obtain ⟨hreads, rfl, rfl⟩ := of_bundleImages hbundle
    have himages : ∀ image ∈ f.images view, image ∈ imagesOf view (before ++ f :: after) :=
      fun image => mem_imagesOf_of_mem (by simp)
    have hcopies : HoldsCopies view (imagesOf view (before ++ f :: after)) (leftBy view before) :=
      holdsCopies_empty.foldl_leave fun g hg image =>
        mem_imagesOf_of_mem (List.mem_append_left _ hg)
    have hleave : f.leave view (leftBy view before) = leftBy view (before ++ [f]) := by
      rw [leftBy, leftBy, List.foldl_append]
      rfl
    refine ⟨rfl, hleave, fun image himage => ?_⟩
    obtain ⟨content, hcontent, hkept⟩ := hcopies.mem_keepImages hapart himages hreads image himage
    rw [path_newSource hcontent (hnames image (himages image himage))]
    have hlater : (assetPath content image.file, content) ∈
        (leftBy view (before ++ [f] ++ after)).files := mem_leftBy_append (hleave ▸ hkept)
    exact ⟨content, hcontent, hkept, by simpa using hlater⟩
  shared := by
    intro i hi j hj c d hc hd
    have hpaths : newSource view i = newSource view j ↔
        assetPath c i.file = assetPath d j.file := by
      rw [← path_newSource hc (hnames i hi), ← path_newSource hd (hnames j hj), Path.mk.injEq,
        String.ofList_inj]
    rw [hpaths]
    constructor
    · intro hsame
      have horder : Path.order (assetPath c i.file) (assetPath d j.file) = .eq := by
        rw [hsame]
        exact Std.ReflCmp.compare_self
      obtain ⟨hdigits, hname⟩ := digits_and_name_of_order horder
      exact ⟨hapart i hi j hj c d hc hd hname hdigits, hname⟩
    · rintro ⟨rfl, hname⟩
      exact assetPath_congr hname

end Sequences

/-! The finished tree. -/

/-- The files of a finished reference of a map with so many nodes. Each is found with its own
bytes, and there are no others. -/
structure HasAllFiles (setup : Setup) (top : Node) (s : State) (files : FileSet) : Prop where
  shared : ∀ file ∈ sharedFiles setup.options (titleOf setup.options top) s,
    files.get? file.1 = some file.2
  page : ∀ page ∈ s.pages.toList, files.get? (pagePath page.1) = some page.2.toUTF8
  asset : ∀ asset ∈ s.assets.files, files.get? asset.1 = some asset.2
  asset_ne_shared : ∀ asset ∈ s.assets.files, ∀ path ∈ sharedPaths,
    Path.order asset.1 path ≠ .eq
  asset_ne_page : ∀ asset ∈ s.assets.files, ∀ id, Path.order asset.1 (pagePath id) ≠ .eq
  pages_size : s.pages.size =
    (Element.allBelow (walkOptions setup.options) top).length
  length_eq : files.files.length =
    4 + (Element.allBelow (walkOptions setup.options) top).length + s.assets.files.length

theorem hasAllFiles_of_produce {setup : Setup} {top : Node} {destination : Path} {a : Artifact}
    {s : Session State} (h : (emitter setup).produce top destination = (.ok a, s)) :
    ∃ files, a = .tree files ∧ HasAllFiles setup top s.state files := by
  obtain ⟨rfl, hassets, hdocuments⟩ := documents_of_produce h
  have hdistinct := hdocuments.nodup_numbers
  have hpages : s.state.pages.size =
      (Element.allBelow (walkOptions setup.options) top).length := by
    have hnumbers := hdocuments.pages_perm.length_eq
    rw [List.length_map, List.length_range', hdocuments.length_eq, Element.forest_top,
      Array.length_toList] at hnumbers
    exact hnumbers
  refine ⟨_, rfl, ?_⟩
  exact {
    shared := fun file hfile => get?_filesOf_shared _ _ hassets hfile
    page := fun page hpage => get?_filesOf_page _ _ hassets hdistinct hpage
    asset := fun asset hasset => get?_filesOf_asset _ _ hasset
    asset_ne_shared := fun asset hasset path hpath => hassets.order_shared_ne hpath asset hasset
    asset_ne_page := fun asset hasset id => hassets.order_page_ne id asset hasset
    pages_size := hpages
    length_eq := by
      rw [length_filesOf _ _ hassets hdistinct, hpages]
      rfl }

/-- Bundled images keep their bytes, in any sequence of descriptions that share their assets,
as long as different contents are told apart by name or digits. A finished reference has
bundled the descriptions of its map in one such sequence, and its tree has the files that all
references share, a page for each node and an image for each asset, none in another's place. -/
theorem export_keeps_images (setup : Setup) :
    (∀ fragments : List Fragment, HavePlainNames (imagesOf setup.view fragments) →
      AreApart setup.view (imagesOf setup.view fragments) → KeepsBytes setup.view fragments) ∧
    ∀ top destination a s, (emitter setup).produce top destination = (.ok a, s) →
      Bundled setup.view {} (nodeFragments setup none top) s.state.assets ∧
      s.state.assets = leftBy setup.view (nodeFragments setup none top) ∧
      ∃ files, a = .tree files ∧ HasAllFiles setup top s.state files := by
  refine ⟨fun fragments => keepsBytes, fun top destination a s h => ?_⟩
  have hbundled := bundled_of_produce h
  exact ⟨hbundled, hbundled.eq_foldl, hasAllFiles_of_produce h⟩

/-! An example. -/

/-- Two images, of which one is found below two directories, and one more file that cannot be
read. -/
def gallery : FileView where
  isFile p := p.text ∈ ["doc/img/a.png", "img/a.png", "b.png", "lost.png"]
  read? p := [(some "a.png", "one".toUTF8), (some "b.png", "two".toUTF8)].lookup p.fileName?

def galleryFragments : List Fragment := [
  ⟨some ⟨"doc/top.toml"⟩, "<img src=\"img/a.png\"/>"⟩,
  ⟨none, "<img src='b.png'/><img src=\"lost.png\"/>"⟩,
  ⟨none, "<p><IMG alt=\"b\" src=\"b.png\"/><img src=\"img/a.png\" /></p>"⟩]

/-- A block with two images in its description and a register with one of them. -/
def galleryMap : Node :=
  let fig : Node := (Node.reg "fig").withProperty "desc" (.text "<img src=\"img/a.png\"/>")
  let chip : Node := (Node.addrmap "chip").withProperty "desc"
    (.text "<img src=\"img/a.png\"/><img src=\"b.png\"/>")
  { chip.addChild fig with source := some ⟨"doc/top.toml"⟩ }

theorem files_galleryFragments : (imagesOf gallery galleryFragments).map (·.file) =
    [⟨"doc/img/a.png"⟩, ⟨"b.png"⟩, ⟨"lost.png"⟩, ⟨"b.png"⟩, ⟨"img/a.png"⟩] := by
  decide +kernel

theorem havePlainNames_galleryFragments :
    HavePlainNames (imagesOf gallery galleryFragments) := by
  intro image himage
  have hfile := List.mem_map_of_mem (f := (·.file)) himage
  rw [files_galleryFragments] at hfile
  revert hfile
  generalize image.file = file
  revert file
  decide +kernel

/-- Files of one name have the same contents there. -/
theorem areApart_gallery (images : List FoundImage) : AreApart gallery images := by
  intro i _ j _ c d hc hd hname _
  have hsame : gallery.read? i.file = gallery.read? j.file :=
    congrArg (List.lookup · _) hname
  exact Option.some_inj.1 (hc.symm.trans (hsame.trans hd))

theorem export_keeps_images_of_gallery :
    KeepsBytes gallery galleryFragments ∧
    ∃ a s, (emitter ⟨{}, .rawMarkup, gallery⟩).produce galleryMap ⟨"chip"⟩ = (.ok a, s) ∧
      s.state.assets.files.length = 2 ∧
      ∃ files, a = .tree files ∧
        HasAllFiles ⟨{}, .rawMarkup, gallery⟩ galleryMap s.state files := by
  obtain ⟨hkeeps, hfiles⟩ := export_keeps_images ⟨{}, .rawMarkup, gallery⟩
  refine ⟨hkeeps galleryFragments havePlainNames_galleryFragments (areApart_gallery _), ?_⟩
  have hok : ((emitter ⟨{}, .rawMarkup, gallery⟩).produce galleryMap ⟨"chip"⟩).1.isOk = true := by
    decide +kernel
  obtain ⟨a, s, hproduce, _⟩ := (emitter ⟨{}, .rawMarkup, gallery⟩).exists_produce_eq_ok hok
  have htwo : ((emitter ⟨{}, .rawMarkup, gallery⟩).produce galleryMap
      ⟨"chip"⟩).2.state.assets.files.length = 2 := by
    decide +kernel
  rw [hproduce] at htwo
  exact ⟨a, s, hproduce, htwo, (hfiles galleryMap ⟨"chip"⟩ a s hproduce).2.2⟩

end RegisterMap.Html
