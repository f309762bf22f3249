import Mathlib.Tactic.Common
import RegisterMap.Html.Emitter
import RegisterMap.Proofs.FileSet
import RegisterMap.Proofs.Path
import RegisterMap.Proofs.Text.Number
import RegisterMap.Proofs.Valid

/-!
The files of a reference. A page, an image and a file that all references share are
told apart by the components of their paths, so that none takes another's place.
-/

namespace RegisterMap.Html

/-! The paths of pages and images. -/

/-- A name without a slash comes right below the directory of the pages. -/
theorem join_content {name : String} (hslash : '/' ∉ name.toList) :
    Path.join ⟨"content"⟩ ⟨name⟩ = ⟨"content" ++ "/" ++ name⟩ := by
  have hname : (⟨name⟩ : Path).isAbsolute = false := by
    simpa [Path.isAbsolute] using fun h => hslash (List.mem_of_mem_head? h)
  have hopen : (⟨"content"⟩ : Path).endsInSlash = false := by decide
  rw [Path.join, hname, hopen]
  rfl

/-- A name below the directory of the pages is the second component of its path, if there is
no slash in it and it is not made of dots. -/
theorem components_content {name : String} (hslash : '/' ∉ name.toList) {c : Char}
    (hc : c ∈ name.toList) (hletter : c ≠ '.') :
    (Path.join ⟨"content"⟩ ⟨name⟩).components = [.named "content", .named name] := by
  have htext : ("content" ++ "/" ++ name : String).toList =
      "content".toList ++ '/' :: name.toList := by
    simp [String.toList_append]
  have hpieces : (⟨"content" ++ "/" ++ name⟩ : Path).pieces =
      ["content".toList, name.toList] := by
    rw [Path.pieces, htext, Text.splitAt_append_sep, Text.splitAt_of_not_mem (by decide),
      Text.splitAt_of_not_mem hslash]
    rfl
  have hrelative : (⟨"content" ++ "/" ++ name⟩ : Path).isAbsolute = false := by
    rw [Path.isAbsolute, htext]
    rfl
  have hdot : name.toList ≠ ['.'] := fun h => hletter (List.mem_singleton.1 (h ▸ hc))
  have hdots : name.toList ≠ ['.', '.'] := fun h => by
    rw [h] at hc
    simp [hletter] at hc
  have hfirst : Path.counts 0 "content".toList = true := by decide
  have hsecond : Path.counts 1 name.toList = true := by
    simp [Path.counts, hdot, String.toList_eq_nil_iff.not.1 (List.ne_nil_of_mem hc)]
  have hdirectory : Path.Component.ofPiece "content".toList = .named "content" := by decide
  have hown : Path.Component.ofPiece name.toList = .named name := by
    rw [Path.Component.ofPiece, if_neg hdot, if_neg hdots, String.ofList_toList]
  rw [join_content hslash, Path.components, hrelative, Path.countingPieces, hpieces]
  generalize "content".toList = directory at hfirst hdirectory ⊢
  simp [List.zipIdx_cons, hfirst, hsecond, hdirectory, hown]

/-- The second component of a page's path is its file name. -/
theorem components_pagePath (id : Nat) :
    (pagePath id).components = [.named "content", .named (toString id ++ ".html")] := by
  have hslash : '/' ∉ (toString id ++ ".html").toList := by
    rw [String.toList_append, List.mem_append]
    exact not_or.2 ⟨Text.not_mem_toString rfl id, by decide⟩
  have hletter : 'h' ∈ (toString id ++ ".html").toList := by simp [String.toList_append]
  exact components_content hslash hletter (by decide)

/-- The digits of a digest that stand in front of the name of an image. -/
def digestDigits (content : ByteArray) : List Char :=
  ((Digest.sha256 content.toList).flatMap Text.hexByte).take 8

theorem toList_assetName (content : ByteArray) (file : Path) :
    (assetName content file).toList =
      digestDigits content ++ '_' :: (file.fileName?.getD "").toList := by
  simp [assetName, digestDigits, String.toList_append]

theorem not_mem_digestDigits {c : Char} (h : ∀ d < 16, c ≠ Nat.digitChar d)
    (content : ByteArray) : c ∉ digestDigits content := by
  intro hmem
  obtain ⟨b, _, hb⟩ := List.mem_flatMap.1 (List.mem_of_mem_take hmem)
  rw [Text.hexByte, Text.hexPadded, List.mem_append] at hb
  rcases hb with hzero | hdigit
  · exact h 0 (by decide) (List.eq_of_mem_replicate hzero)
  · exact Text.not_mem_hexDigits h _ hdigit

theorem length_digestDigits (content : ByteArray) : (digestDigits content).length = 8 := by
  have hbytes (bytes : List UInt8) : 2 * bytes.length ≤ (bytes.flatMap Text.hexByte).length := by
    induction bytes with
    | nil => exact Nat.le_refl _
    | cons b rest ih =>
      have hbyte : 2 ≤ (Text.hexByte b).length := by
        simp only [Text.hexByte, Text.hexPadded, List.length_append, List.length_replicate]
        omega
      rw [List.flatMap_cons, List.length_append, List.length_cons]
      omega
  have hdigest : (Digest.sha256 content.toList).length = 32 := by
    simp [Digest.sha256, Digest.Words.toList, Digest.length_bytesOf]
  have hlong := hbytes (Digest.sha256 content.toList)
  rw [hdigest] at hlong
  rw [digestDigits, List.length_take]
  omega

theorem underscore_mem_assetName (content : ByteArray) (file : Path) :
    '_' ∈ (assetName content file).toList := by
  simp [toList_assetName]

theorem slash_not_mem_assetName (content : ByteArray) (file : Path) :
    '/' ∉ (assetName content file).toList := by
  rw [toList_assetName, List.mem_append, List.mem_cons]
  simp only [not_or]
  exact ⟨not_mem_digestDigits (by decide) content, by decide, file.slash_not_mem_fileName⟩

theorem assetPath_eq (content : ByteArray) (file : Path) :
    assetPath content file = ⟨"content" ++ "/" ++ assetName content file⟩ :=
  join_content (slash_not_mem_assetName content file)

/-- The second component of an image's path is its name in the output. -/
theorem components_assetPath (content : ByteArray) (file : Path) :
    (assetPath content file).components =
      [.named "content", .named (assetName content file)] :=
  components_content (slash_not_mem_assetName content file)
    (underscore_mem_assetName content file) (by decide)

/-- Pages have paths of their own. -/
theorem id_eq_of_order {i j : Nat} (h : Path.order (pagePath i) (pagePath j) = .eq) : i = j := by
  have hsame := Path.components_eq_of_order h
  rw [components_pagePath, components_pagePath] at hsame
  simp only [List.cons.injEq, Path.Component.named.injEq, true_and] at hsame
  have hchars := congrArg String.toList hsame.1
  rw [String.toList_append, String.toList_append] at hchars
  have hdigits := List.append_cancel_right hchars
  have hvalue := congrArg (fun digits => Nat.ofDigitChars 10 digits 0) hdigits
  simpa [Nat.toString_eq_ofList_toDigits] using hvalue

/-- No image has the path of a page. -/
theorem order_assetPath_ne (content : ByteArray) (file : Path) (id : Nat) :
    Path.order (assetPath content file) (pagePath id) ≠ .eq := by
  intro h
  have hunderscore := underscore_mem_assetName content file
  have hsame := Path.components_eq_of_order h
  rw [components_assetPath, components_pagePath] at hsame
  simp only [List.cons.injEq, Path.Component.named.injEq, true_and] at hsame
  have hchars := congrArg String.toList hsame.1
  rw [String.toList_append, Nat.toString_eq_ofList_toDigits, String.toList_ofList] at hchars
  rw [hchars, List.mem_append] at hunderscore
  rcases hunderscore with hdigit | hletter
  · have hdigit' := Nat.isDigit_of_mem_toDigits (by decide) (by decide) hdigit
    revert hdigit'
    decide
  · revert hletter
    decide

/-- A file outside the directory of the pages is neither a page nor an image. -/
theorem order_ne_of_head {path other : Path} (h : path.components.head? ≠ some (.named "content"))
    {name : String} (hother : other.components = [.named "content", .named name]) :
    Path.order other path ≠ .eq := by
  intro hsame
  rw [← Path.components_eq_of_order hsame, hother] at h
  exact h rfl

/-! The assets of a reference. -/

/-- All files of a set are images. -/
def HasAssets (s : FileSet) : Prop :=
  ∀ path, (s.get? path).isSome = true →
    ∃ content file, Path.order (assetPath content file) path = .eq

theorem hasAssets_empty : HasAssets {} := by
  intro path h
  rw [FileSet.get?_empty] at h
  cases h

theorem HasAssets.insertNew {s : FileSet} (h : HasAssets s) (content : ByteArray) (file : Path) :
    HasAssets (s.insertNew (assetPath content file) content) := by
  unfold FileSet.insertNew
  split
  · exact h
  · intro path hpath
    rw [FileSet.get?_insert] at hpath
    split at hpath
    case isTrue hsame => exact ⟨content, file, hsame⟩
    case isFalse => exact h path hpath

section Bundling

variable {view : FileView} {assets result : FileSet} {chars : List Char}

theorem bundlePieces_cons_eq_ok {piece : Piece FoundImage} {rest : List (Piece FoundImage)}
    (h : bundlePieces view assets (piece :: rest) = .ok (chars, result)) :
    ∃ front next back, bundlePiece view assets piece = .ok (front, next) ∧
      bundlePieces view next rest = .ok (back, result) ∧ chars = front ++ back := by
  rw [bundlePieces, Except.bind_eq_ok_iff] at h
  obtain ⟨⟨front, next⟩, hpiece, hrest⟩ := h
  obtain ⟨⟨back, last⟩, hback, hpure⟩ := Except.bind_eq_ok_iff.1 hrest
  cases hpure
  exact ⟨front, next, back, hpiece, hback, rfl⟩

/-- An image that is bundled has been read. -/
theorem bundlePiece_tag_eq_ok {image : FoundImage}
    (h : bundlePiece view assets (.tag image) = .ok (chars, result)) :
    ∃ content, view.read? image.file = some content ∧
      chars = image.source.before ++ sourceOf (assetPath content image.file) ++
        image.source.after ∧
      result = assets.insertNew (assetPath content image.file) content := by
  cases hread : view.read? image.file with
  | none => simp [bundlePiece, hread] at h
  | some content =>
    simp only [bundlePiece, hread, Except.ok.injEq, Prod.mk.injEq] at h
    exact ⟨content, rfl, h.1.symm, h.2.symm⟩

theorem bundleImages_eq_ok {origin : Option Path} {html html' : String}
    (h : bundleImages view origin html assets = .ok (html', result)) :
    ∃ chars, bundlePieces view assets (cut (foundImage? view origin) 0 html.toList) =
      .ok (chars, result) ∧ html' = String.ofList chars := by
  rw [bundleImages, Except.bind_eq_ok_iff] at h
  obtain ⟨⟨chars, after⟩, hpieces, hpure⟩ := h
  cases hpure
  exact ⟨chars, hpieces, rfl⟩

theorem HasAssets.bundlePieces {pieces : List (Piece FoundImage)} (h : HasAssets assets)
    (hpieces : Html.bundlePieces view assets pieces = .ok (chars, result)) :
    HasAssets result := by
  induction pieces generalizing assets chars with
  | nil =>
    cases hpieces
    exact h
  | cons piece rest ih =>
    obtain ⟨front, next, back, hpiece, hback, _⟩ := bundlePieces_cons_eq_ok hpieces
    refine ih ?_ hback
    cases piece with
    | char c =>
      cases hpiece
      exact h
    | tag image =>
      obtain ⟨content, _, _, rfl⟩ := bundlePiece_tag_eq_ok hpiece
      exact h.insertNew content image.file

theorem HasAssets.bundleImages {origin : Option Path} {html html' : String}
    (h : HasAssets assets)
    (hbundle : Html.bundleImages view origin html assets = .ok (html', result)) :
    HasAssets result := by
  obtain ⟨chars, hpieces, _⟩ := bundleImages_eq_ok hbundle
  exact h.bundlePieces hpieces

end Bundling

/-! All files of a reference. -/

/-- The paths of the files that all references share. -/
def sharedPaths : List Path :=
  [⟨"index.html"⟩, ⟨"js/data.js"⟩, ⟨"js/ralbot.js"⟩, ⟨"css/ralbot.css"⟩]

theorem sharedPaths_distinct : sharedPaths.Pairwise fun p q => Path.order q p ≠ .eq := by
  unfold sharedPaths
  decide

theorem sharedPaths_outside :
    ∀ path ∈ sharedPaths, path.components.head? ≠ some (.named "content") := by
  decide

section Reference

variable {s : State} (options : HtmlOptions) (title : String)

/-- The files that all references share, the index among them. -/
def sharedFiles (s : State) : List (Path × ByteArray) := [
  (⟨"index.html"⟩, (Markup.renderAll (indexPage title options)).toUTF8),
  (⟨"js/data.js"⟩, (indexScript s.index.toList title).toUTF8),
  (⟨"js/ralbot.js"⟩, fileOfLines scriptLines),
  (⟨"css/ralbot.css"⟩, fileOfLines styleLines)]

/-- The pages, each under its number. -/
def pageFiles (s : State) : List (Path × ByteArray) :=
  s.pages.toList.map fun page => (pagePath page.1, page.2.toUTF8)

theorem filesOf_eq :
    filesOf options title s =
      (((FileSet.ofList (sharedFiles options title s)).insertAll (pageFiles s)).insertAll
        s.assets.files) :=
  rfl

/-! What the files are told apart by. -/

theorem map_fst_sharedFiles : (sharedFiles options title s).map Prod.fst = sharedPaths := rfl

theorem mem_sharedPaths_of_mem {file : Path × ByteArray}
    (h : file ∈ sharedFiles options title s) : file.1 ∈ sharedPaths :=
  map_fst_sharedFiles options title ▸ List.mem_map_of_mem h

theorem pairwise_sharedFiles :
    (sharedFiles options title s).Pairwise fun f g => Path.order g.1 f.1 ≠ .eq := by
  have hdistinct := sharedPaths_distinct
  rw [← map_fst_sharedFiles options title] at hdistinct
  exact List.pairwise_map.1 hdistinct

theorem pairwise_pageFiles (hdistinct : (s.pages.toList.map Prod.fst).Nodup) :
    (pageFiles s).Pairwise fun f g => Path.order g.1 f.1 ≠ .eq := by
  rw [pageFiles, List.pairwise_map]
  refine (List.pairwise_map.1 hdistinct).imp fun hne hsame => hne ?_
  exact (id_eq_of_order hsame).symm

/-- A file that all references share is outside the directory of the pages. -/
theorem outside_of_mem_sharedFiles {file : Path × ByteArray}
    (h : file ∈ sharedFiles options title s) :
    file.1.components.head? ≠ some (.named "content") :=
  sharedPaths_outside file.1 (mem_sharedPaths_of_mem options title h)

theorem order_shared_page_ne {file : Path × ByteArray} (h : file ∈ sharedFiles options title s)
    (id : Nat) : Path.order file.1 (pagePath id) ≠ .eq := fun hsame =>
  order_ne_of_head (outside_of_mem_sharedFiles options title h) (components_pagePath id)
    (Std.OrientedCmp.eq_symm hsame)

theorem HasAssets.order_ne (hassets : HasAssets s.assets) {path : Path}
    (hpath : ∀ content file, Path.order (assetPath content file) path ≠ .eq) :
    ∀ file ∈ s.assets.files, Path.order file.1 path ≠ .eq := by
  intro file hfile hsame
  obtain ⟨content, source, hasset⟩ := hassets file.1 (FileSet.isSome_get?_of_mem hfile)
  exact hpath content source (Std.TransCmp.eq_trans hasset hsame)

theorem HasAssets.order_page_ne (hassets : HasAssets s.assets) (id : Nat) :
    ∀ asset ∈ s.assets.files, Path.order asset.1 (pagePath id) ≠ .eq :=
  hassets.order_ne fun content file => order_assetPath_ne content file id

theorem HasAssets.order_shared_ne (hassets : HasAssets s.assets) {path : Path}
    (h : path ∈ sharedPaths) : ∀ asset ∈ s.assets.files, Path.order asset.1 path ≠ .eq :=
  hassets.order_ne fun content file =>
    order_ne_of_head (sharedPaths_outside path h) (components_assetPath content file)

/-! What is found. -/

/-- Each page is found under its number. -/
theorem get?_filesOf_page (hassets : HasAssets s.assets)
    (hdistinct : (s.pages.toList.map Prod.fst).Nodup) {id : Nat} {page : String}
    (hpage : (id, page) ∈ s.pages.toList) :
    (filesOf options title s).get? (pagePath id) = some page.toUTF8 := by
  rw [filesOf_eq, FileSet.get?_insertAll_of_ne (hassets.order_page_ne id)]
  exact FileSet.get?_insertAll_of_mem (pairwise_pageFiles hdistinct)
    (List.mem_map.2 ⟨(id, page), hpage, rfl⟩)

/-- There are no other pages. -/
theorem get?_filesOf_none (hassets : HasAssets s.assets) {id : Nat}
    (hid : id ∉ s.pages.toList.map Prod.fst) :
    (filesOf options title s).get? (pagePath id) = none := by
  rw [filesOf_eq, FileSet.get?_insertAll_of_ne (hassets.order_page_ne id),
    FileSet.get?_insertAll_of_ne, FileSet.ofList, FileSet.get?_insertAll_of_ne]
  · exact FileSet.get?_empty
  · exact fun file hfile => order_shared_page_ne options title hfile id
  · intro file hfile hsame
    obtain ⟨page, hpage, rfl⟩ := List.mem_map.1 hfile
    exact hid (id_eq_of_order hsame ▸ List.mem_map_of_mem hpage)

/-- The files that all references share are no pages and no images. -/
theorem get?_filesOf_shared (hassets : HasAssets s.assets) {path : Path} {content : ByteArray}
    (hfile : (path, content) ∈ sharedFiles options title s) :
    (filesOf options title s).get? path = some content := by
  rw [filesOf_eq, FileSet.get?_insertAll_of_ne
      (hassets.order_shared_ne (mem_sharedPaths_of_mem options title hfile)),
    FileSet.get?_insertAll_of_ne, FileSet.ofList]
  · exact FileSet.get?_insertAll_of_mem (pairwise_sharedFiles options title) hfile
  · intro file hpage
    obtain ⟨page, _, rfl⟩ := List.mem_map.1 hpage
    exact order_ne_of_head (outside_of_mem_sharedFiles options title hfile)
      (components_pagePath page.1)

/-- Each image is found under its path. -/
theorem get?_filesOf_asset {asset : Path × ByteArray} (h : asset ∈ s.assets.files) :
    (filesOf options title s).get? asset.1 = some asset.2 :=
  FileSet.get?_insertAll_of_mem s.assets.pairwise_files h

/-- No file takes the place of another. -/
theorem length_filesOf (hassets : HasAssets s.assets)
    (hdistinct : (s.pages.toList.map Prod.fst).Nodup) :
    (filesOf options title s).files.length =
      sharedPaths.length + s.pages.size + s.assets.files.length := by
  have hshared : (FileSet.ofList (sharedFiles options title s)).files.length =
      sharedPaths.length := by
    rw [FileSet.ofList, FileSet.length_files_insertAll (pairwise_sharedFiles options title)
      fun _ _ => FileSet.get?_empty]
    rfl
  have hpages : ∀ file ∈ pageFiles s,
      (FileSet.ofList (sharedFiles options title s)).get? file.1 = none := by
    intro file hfile
    obtain ⟨page, _, rfl⟩ := List.mem_map.1 hfile
    rw [FileSet.ofList, FileSet.get?_insertAll_of_ne fun shared hmem =>
      order_shared_page_ne options title hmem page.1, FileSet.get?_empty]
  have himages : ∀ asset ∈ s.assets.files,
      ((FileSet.ofList (sharedFiles options title s)).insertAll (pageFiles s)).get? asset.1 =
        none := by
    intro asset hasset
    rw [FileSet.get?_insertAll_of_ne, FileSet.ofList, FileSet.get?_insertAll_of_ne,
      FileSet.get?_empty]
    · intro file hfile hsame
      exact hassets.order_shared_ne (mem_sharedPaths_of_mem options title hfile) asset hasset
        (Std.OrientedCmp.eq_symm hsame)
    · intro file hfile hsame
      obtain ⟨page, _, rfl⟩ := List.mem_map.1 hfile
      exact hassets.order_page_ne page.1 asset hasset (Std.OrientedCmp.eq_symm hsame)
  have hcount : (pageFiles s).length = s.pages.size := by simp [pageFiles]
  rw [filesOf_eq, FileSet.length_files_insertAll s.assets.pairwise_files himages,
    FileSet.length_files_insertAll (pairwise_pageFiles hdistinct) hpages, hshared, hcount]

theorem get?_filesOf_index (hassets : HasAssets s.assets) :
    (filesOf options title s).get? ⟨"index.html"⟩ =
      some (Markup.renderAll (indexPage title options)).toUTF8 :=
  get?_filesOf_shared options title hassets List.mem_cons_self

theorem get?_filesOf_data (hassets : HasAssets s.assets) :
    (filesOf options title s).get? ⟨"js/data.js"⟩ =
      some (indexScript s.index.toList title).toUTF8 :=
  get?_filesOf_shared options title hassets (List.mem_cons_of_mem _ List.mem_cons_self)

end Reference

end RegisterMap.Html
