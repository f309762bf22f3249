import RegisterMap.Proofs.Html.Cut
import RegisterMap.Proofs.Html.Files
import RegisterMap.Proofs.Html.ImageTag

/-!
Images of a description that are put into the output. The search goes through a fragment
from its front, and an image's tag takes all up to the next `/>` with it. A tag behind a
text in which all such tags are ended is met by itself: its source becomes the path that its
file is found under in the output, whatever stands around it.
-/

namespace RegisterMap.Html

/-! Tags in front of others. -/

/-- A text that goes on with the word of an image's tag. -/
def BeginsImage (cs : List Char) : Prop :=
  ∃ blanks word rest, (∀ c ∈ blanks, isTagBlank c = true) ∧
    word.map Char.toLower = ['i', 'm', 'g'] ∧ cs = blanks ++ (word ++ rest)

/-- All tags of images that begin in a text are ended in it. -/
def EndsImages (front : List Char) : Prop :=
  ∀ rest, '<' :: rest <:+ front → BeginsImage rest → ['/', '>'] <:+: rest

/-- The first end of a tag is where it is, whatever follows. -/
theorem exists_untilClose?_of_infix {cs : List Char} (h : ['/', '>'] <:+: cs) :
    ∃ inside, inside.length + 2 ≤ cs.length ∧ ∀ back, untilClose? (cs ++ back) = some inside := by
  induction cs with
  | nil => simp at h
  | cons c cs ih =>
    by_cases hend : c = '/' ∧ cs.head? = some '>'
    · obtain ⟨rfl, hhead⟩ := hend
      obtain ⟨more, rfl⟩ : ∃ more, cs = '>' :: more := List.head?_eq_some_iff.1 hhead
      exact ⟨[], by simp, fun back => rfl⟩
    · have hrest : ['/', '>'] <:+: cs := by
        rcases List.infix_cons_iff.1 h with hfront | hrest
        · obtain ⟨more, heq⟩ := hfront
          obtain ⟨rfl, rfl⟩ := List.cons.inj heq
          exact absurd ⟨rfl, rfl⟩ hend
        · exact hrest
      obtain ⟨inside, hlength, hinside⟩ := ih hrest
      refine ⟨c :: inside, by simpa using hlength, fun back => ?_⟩
      have hopen : c = '/' → (cs ++ back).head? ≠ some '>' := by
        rintro rfl hhead
        cases cs with
        | nil => simp at hrest
        | cons d more => exact hend ⟨rfl, hhead⟩
      rw [List.cons_append, untilClose?_cons hopen, hinside, Option.map_some]

theorem infix_of_not_mem {c : Char} {cs front back : List Char} (hc : c ∉ front)
    (h : c :: cs <:+: front ++ back) : c :: cs <:+: back := by
  induction front with
  | nil => exact h
  | cons d front ih =>
    obtain ⟨hd, hfront⟩ := not_or.1 (mt List.mem_cons.2 hc)
    rcases List.infix_cons_iff.1 h with ⟨more, heq⟩ | hrest
    · exact absurd (List.cons.inj heq).1 hd
    · exact ih hfront hrest

theorem not_mem_of_toLower {word : List Char} (h : word.map Char.toLower = ['i', 'm', 'g'])
    {c : Char} (hc : c.toLower ∉ ['i', 'm', 'g']) : c ∉ word := by
  intro hmem
  rw [← h] at hc
  exact hc (List.mem_map_of_mem hmem)

/-- A word is not completed by the front of a tag. -/
theorem word?_append_eq_none {cs : List Char} (h : word? ['i', 'm', 'g'] cs = none)
    (rest : List Char) : word? ['i', 'm', 'g'] (cs ++ '<' :: rest) = none := by
  refine Option.eq_none_iff_forall_ne_some.2 fun ⟨word, tail⟩ hword => ?_
  obtain ⟨hlower, heq⟩ := word?_eq_some_iff.1 hword
  have hopen : '<' ∉ word := not_mem_of_toLower hlower (by decide)
  rcases List.append_eq_append_iff.1 heq with ⟨inside, hsplit, hrest⟩ | ⟨inside, hsplit, _⟩
  · cases inside with
    | nil =>
      rw [List.append_nil] at hsplit
      have hfound : word? ['i', 'm', 'g'] cs = some (cs, []) :=
        word?_eq_some_iff.2 ⟨hsplit ▸ hlower, (List.append_nil cs).symm⟩
      cases h.symm.trans hfound
    | cons c more =>
      obtain rfl : '<' = c := (List.cons.inj hrest).1
      exact hopen (hsplit ▸ by simp)
  · rw [hsplit, word?_eq_some_iff.2 ⟨hlower, rfl⟩] at h
    cases h

/-- The blanks at the front of a text end before the next tag. -/
theorem span_isTagBlank_append (cs rest : List Char) :
    (cs ++ '<' :: rest).takeWhile isTagBlank = cs.takeWhile isTagBlank ∧
      (cs ++ '<' :: rest).dropWhile isTagBlank = cs.dropWhile isTagBlank ++ '<' :: rest := by
  have hopen : isTagBlank '<' = false := by decide
  induction cs with
  | nil => simp [hopen]
  | cons c cs ih =>
    cases hc : isTagBlank c with
    | true => simpa [hc] using ih
    | false => simp [hc]

section Front

variable {front rest : List Char}

/-- Whether an image's tag begins in front of another tag is decided in front of it, and it
ends there. -/
theorem imageTag?_append (h : EndsImages front) (hrest : '<' :: rest <:+ front)
    (more : List Char) :
    imageTag? ('<' :: (rest ++ '<' :: more)) = imageTag? ('<' :: rest) ∧
      ∀ lead inside, imageTag? ('<' :: rest) = some (lead, inside) →
        lead.length + inside.length + 2 ≤ rest.length + 1 := by
  obtain ⟨htake, hdrop⟩ := span_isTagBlank_append rest more
  have hwhole := List.takeWhile_append_dropWhile (p := isTagBlank) (l := rest)
  simp only [imageTag?, htake, hdrop, Option.bind_eq_bind]
  cases hword : word? ['i', 'm', 'g'] (rest.dropWhile isTagBlank) with
  | none => simp [word?_append_eq_none hword]
  | some found =>
    obtain ⟨word, tail⟩ := found
    obtain ⟨hlower, hcore⟩ := word?_eq_some_iff.1 hword
    rw [hcore] at hwhole
    have hbegins : BeginsImage rest := ⟨_, word, tail,
      fun c hc => List.mem_takeWhile_imp hc, hlower, hwhole.symm⟩
    have hclose : ['/', '>'] <:+: tail := by
      have hinside := h rest hrest hbegins
      rw [← hwhole] at hinside
      have hblanks : '/' ∉ rest.takeWhile isTagBlank := fun hmem => by
        cases List.mem_takeWhile_imp hmem
      have hslash : '/' ∉ word := not_mem_of_toLower hlower (by decide)
      exact infix_of_not_mem hslash (infix_of_not_mem hblanks hinside)
    obtain ⟨inside, hlength, hinside⟩ := exists_untilClose?_of_infix hclose
    have hnext : word? ['i', 'm', 'g'] (rest.dropWhile isTagBlank ++ '<' :: more) =
        some (word, tail ++ '<' :: more) :=
      word?_eq_some_iff.2 ⟨hlower, by rw [hcore, List.append_assoc]⟩
    have hself := hinside []
    rw [List.append_nil] at hself
    simp only [hnext, Option.bind_some, hself, hinside]
    refine ⟨trivial, fun lead attributes heq => ?_⟩
    cases heq
    have hall := congrArg List.length hwhole
    simp only [List.length_append, List.length_singleton] at hall ⊢
    omega

/-- Images in front of a tag are cut off as if the tag were not there. -/
theorem cutsOff_foundImage? (view : FileView) (origin : Option Path) (h : EndsImages front)
    (more : List Char) : CutsOff (foundImage? view origin) front ('<' :: more) where
  decided rest hrest := by
    rw [List.cons_append, foundImage?, foundImage?, imageSource?, imageSource?,
      (imageTag?_append h hrest more).1]
  ends rest image length hrest hfound := by
    obtain ⟨⟨source, n⟩, hsource, hlocated⟩ := Option.bind_eq_some_iff.1 hfound
    obtain ⟨file, _, heq⟩ := Option.bind_eq_some_iff.1 hlocated
    cases heq
    obtain ⟨⟨lead, inside⟩, htag, hfind⟩ := Option.bind_eq_some_iff.1 hsource
    obtain ⟨_, _, heq⟩ := Option.bind_eq_some_iff.1 hfind
    cases heq
    exact (imageTag?_append h hrest more).2 lead inside htag

end Front

/-! Pieces put together. -/

section Pieces

variable {view : FileView}

theorem bundlePieces_append {xs ys : List (Piece FoundImage)} {assets between result : FileSet}
    {before after : List Char} (hxs : bundlePieces view assets xs = .ok (before, between))
    (hys : bundlePieces view between ys = .ok (after, result)) :
    bundlePieces view assets (xs ++ ys) = .ok (before ++ after, result) := by
  induction xs generalizing assets before with
  | nil =>
    cases hxs
    exact hys
  | cons piece xs ih =>
    obtain ⟨front, next, back, hpiece, hback, rfl⟩ := bundlePieces_cons_eq_ok hxs
    rw [List.cons_append, bundlePieces, Except.bind_eq_ok_iff]
    refine ⟨_, hpiece, Except.bind_eq_ok_iff.2 ⟨_, ih hback, ?_⟩⟩
    exact congrArg Except.ok (by rw [List.append_assoc])

/-- Where all files that are found can be read, nothing fails. -/
theorem exists_bundlePieces_cut (hreads : ∀ p, view.isFile p = true → (view.read? p).isSome = true)
    (origin : Option Path) (cs : List Char) (assets : FileSet) :
    ∃ chars result, bundlePieces view assets (cut (foundImage? view origin) 0 cs) =
      .ok (chars, result) := by
  have hread : ∀ image, .tag image ∈ cut (foundImage? view origin) 0 cs →
      (view.read? image.file).isSome = true := by
    intro image himage
    obtain ⟨rest, length, hfound⟩ := exists_tag?_of_mem_cut himage
    obtain ⟨_, _, hlocated⟩ := Option.bind_eq_some_iff.1 hfound
    obtain ⟨file, hfile, heq⟩ := Option.bind_eq_some_iff.1 hlocated
    cases heq
    exact hreads file (List.find?_some hfile)
  generalize cut (foundImage? view origin) 0 cs = pieces at hread ⊢
  induction pieces generalizing assets with
  | nil => exact ⟨[], assets, rfl⟩
  | cons piece rest ih =>
    have hrest : ∀ image, .tag image ∈ rest → (view.read? image.file).isSome = true :=
      fun image himage => hread image (List.mem_cons_of_mem _ himage)
    obtain ⟨front, next, hpiece⟩ : ∃ front next, bundlePiece view assets piece =
        .ok (front, next) := by
      cases piece with
      | char c => exact ⟨[c], assets, rfl⟩
      | tag image =>
        obtain ⟨content, hcontent⟩ :=
          Option.isSome_iff_exists.1 (hread image List.mem_cons_self)
        rw [bundlePiece, hcontent]
        exact ⟨_, _, rfl⟩
    obtain ⟨back, result, hback⟩ := ih next hrest
    exact ⟨front ++ back, result, Except.bind_eq_ok_iff.2
      ⟨_, hpiece, Except.bind_eq_ok_iff.2 ⟨_, hback, rfl⟩⟩⟩

theorem isSome_get?_bundlePieces {pieces : List (Piece FoundImage)} {assets result : FileSet}
    {chars : List Char} (h : bundlePieces view assets pieces = .ok (chars, result)) {path : Path}
    (hpath : (assets.get? path).isSome = true) : (result.get? path).isSome = true := by
  induction pieces generalizing assets chars with
  | nil =>
    cases h
    exact hpath
  | cons piece rest ih =>
    obtain ⟨front, next, back, hpiece, hback, _⟩ := bundlePieces_cons_eq_ok h
    refine ih hback ?_
    cases piece with
    | char c =>
      cases hpiece
      exact hpath
    | tag image =>
      obtain ⟨content, _, _, rfl⟩ := bundlePiece_tag_eq_ok hpiece
      exact FileSet.isSome_get?_insertNew hpath

theorem bundleImages_ofList {origin : Option Path} {assets result : FileSet} {cs chars : List Char}
    (h : bundlePieces view assets (cut (foundImage? view origin) 0 cs) = .ok (chars, result)) :
    bundleImages view origin (String.ofList cs) assets = .ok (String.ofList chars, result) := by
  rw [bundleImages, String.toList_ofList, h]
  rfl

end Pieces

/-! The path of an image in the output. -/

theorem mem_of_mem_join {p q : Path} {c : Char} (h : c ∈ (p.join q).text.toList) :
    c ∈ p.text.toList ∨ c = '/' ∨ c ∈ q.text.toList := by
  unfold Path.join at h
  split at h
  · exact Or.inr (Or.inr h)
  · split at h
    · rw [String.toList_append, List.mem_append] at h
      exact h.imp_right Or.inr
    · rw [String.toList_append, String.toList_append, List.mem_append, List.mem_append] at h
      rcases h with (hp | hslash) | hq
      · exact Or.inl hp
      · exact Or.inr (Or.inl (by simpa using hslash))
      · exact Or.inr (Or.inr hq)

/-- The characters of a path in the output that are not fixed come from the name of the
file. -/
theorem not_mem_assetPath {c : Char} (hdigit : ∀ d < 16, c ≠ Nat.digitChar d)
    (hfixed : c ∉ ['c', 'o', 'n', 't', 'e', 'n', 't', '/', '_']) (content : ByteArray) {file : Path}
    (hname : c ∉ (file.fileName?.getD "").toList) :
    c ∉ (assetPath content file).text.toList := by
  intro hpath
  rcases mem_of_mem_join hpath with hfolder | rfl | hasset
  · exact hfixed (List.mem_append_left ['/', '_'] hfolder)
  · exact hfixed (by decide)
  · rw [toList_assetName, List.mem_append, List.mem_cons] at hasset
    rcases hasset with hdigest | rfl | hown
    · exact not_mem_digestDigits hdigit content hdigest
    · exact hfixed (by decide)
    · exact hname hown

/-- A path without a backslash is a source as it is. -/
theorem sourceOf_of_not_mem {path : Path} (h : '\\' ∉ path.text.toList) :
    sourceOf path = path.text.toList := by
  refine (List.map_congr_left fun c hc => ?_).trans (List.map_id _)
  refine if_neg ?_
  rintro rfl
  exact h hc

/-- The source of an image that is found is changed to the path of its file in the output,
and nothing else about the tag. It is taken as if it stood alone, where all tags of images in
front of it are ended there, none of its values looks like its end, none in front of its
source like a source, and the name of the file has no backslash. -/
theorem bundleImages_replaces_source {view : FileView}
    (hreads : ∀ p, view.isFile p = true → (view.read? p).isSome = true) (origin : Option Path)
    (assets : FileSet) {front back : List Char} {tag : ImageTag} {file : Path}
    (hfile : locate? view origin tag.source.value = some file) (hfront : EndsImages front)
    (htag : tag.IsPlain)
    (hname : ∀ c ∈ (file.fileName?.getD "").toList, c ≠ '\\' ∧ c ≠ tag.source.quote) :
    ∃ content before between after result,
      ∃ hquote : tag.source.quote ∉ (assetPath content file).text.toList,
        view.read? file = some content ∧
        bundleImages view origin (String.ofList front) assets = .ok (before, between) ∧
        bundleImages view origin (String.ofList back)
          (between.insertNew (assetPath content file) content) = .ok (after, result) ∧
        bundleImages view origin (String.ofList (front ++ tag.text ++ back)) assets =
          .ok (before ++
            String.ofList (tag.withSource (assetPath content file).text.toList hquote).text ++
            after, result) ∧
        (result.get? (assetPath content file)).isSome = true := by
  obtain ⟨content, hcontent⟩ :=
    Option.isSome_iff_exists.1 (hreads file (List.find?_some hfile))
  obtain ⟨before, between, hbefore⟩ := exists_bundlePieces_cut hreads origin front assets
  obtain ⟨after, result, hafter⟩ := exists_bundlePieces_cut hreads origin back
    (between.insertNew (assetPath content file) content)
  have hbackslash : '\\' ∉ (assetPath content file).text.toList :=
    not_mem_assetPath (by decide) (by decide) content fun hmem => (hname _ hmem).1 rfl
  have hdigits : ∀ d < 16, tag.source.quote ≠ Nat.digitChar d :=
    tag.source.forall_quote (by decide) (by decide)
  have hfixed : tag.source.quote ∉ ['c', 'o', 'n', 't', 'e', 'n', 't', '/', '_'] :=
    tag.source.forall_quote (by decide) (by decide)
  have hquote : tag.source.quote ∉ (assetPath content file).text.toList :=
    not_mem_assetPath hdigits hfixed content fun hmem => (hname _ hmem).2 rfl
  have hfound : foundImage? view origin (tag.text ++ back) =
      some (⟨⟨tag.around.1, tag.source.value, tag.around.2⟩, file⟩, tag.text.length) := by
    simp only [foundImage?, ImageTag.imageSource?_text htag, Option.bind_eq_bind,
      Option.bind_some, hfile]
  have hcut : cut (foundImage? view origin) 0 (front ++ (tag.text ++ back)) =
      cut (foundImage? view origin) 0 front ++
        .tag ⟨⟨tag.around.1, tag.source.value, tag.around.2⟩, file⟩ ::
          cut (foundImage? view origin) 0 back := by
    have hsplit := (cutsOff_foundImage? view origin hfront (tag.text.tail ++ back)).cut_append
    exact hsplit.trans (congrArg _ (cut_append_of_some hfound))
  have hpiece : bundlePiece view between
      (.tag ⟨⟨tag.around.1, tag.source.value, tag.around.2⟩, file⟩) =
        .ok ((tag.withSource _ hquote).text,
          between.insertNew (assetPath content file) content) := by
    rw [bundlePiece, hcontent, ImageTag.text_withSource, ← sourceOf_of_not_mem hbackslash]
    simp
  have htagged : bundlePieces view between
      (.tag ⟨⟨tag.around.1, tag.source.value, tag.around.2⟩, file⟩ ::
        cut (foundImage? view origin) 0 back) =
      .ok ((tag.withSource _ hquote).text ++ after, result) :=
    Except.bind_eq_ok_iff.2 ⟨_, hpiece, Except.bind_eq_ok_iff.2 ⟨_, hafter, rfl⟩⟩
  refine ⟨content, String.ofList before, between, String.ofList after, result, hquote, hcontent,
    bundleImages_ofList hbefore, bundleImages_ofList hafter, ?_, ?_⟩
  · rw [List.append_assoc, ← String.ofList_append, ← String.ofList_append, List.append_assoc]
    exact bundleImages_ofList (hcut ▸ bundlePieces_append hbefore htagged)
  · exact isSome_get?_bundlePieces hafter FileSet.isSome_get?_insertNew_self

/-- A single image. -/
def picture : FileView where
  isFile p := p = ⟨"x.png"⟩
  read? p := if p = ⟨"x.png"⟩ then some "png".toUTF8 else none

/-- An attribute as it is mostly written. -/
def Attribute.written (name value : List Char) (hne : name ≠ [])
    (hname : ∀ c ∈ name, isAttributeChar c = true) (hvalue : '"' ∉ value) : Attribute where
  blanks := [' ']
  name := name
  beforeSign := []
  behindSign := []
  quote := '"'
  value := value
  blanks_ne_nil := by simp
  isTagBlank_blanks := by simp [isTagBlank]
  name_ne_nil := hne
  isAttributeChar_name := hname
  isTagBlank_beforeSign := by simp
  isTagBlank_behindSign := by simp
  quote_eq := Or.inl rfl
  quote_not_mem := hvalue

/-- The tag of the image, with a text that stands for it. -/
def pictureTag (alt : List Char) (h : '"' ∉ alt) : ImageTag where
  word := ['i', 'm', 'g']
  before := [.written ['a', 'l', 't'] alt (by simp)
    (by simp [isAttributeChar, Text.isBlank]) h]
  source := .written ['s', 'r', 'c'] ['x', '.', 'p', 'n', 'g'] (by simp)
    (by simp [isAttributeChar, Text.isBlank]) (by decide)
  behind := []
  blanks := []
  word_eq := by decide
  not_isSource_before a ha := by
    obtain rfl := List.mem_singleton.1 ha
    change ¬['a', 'l', 't'].map Char.toLower = ['s', 'r', 'c']
    decide
  isSource_source := by
    change ['s', 'r', 'c'].map Char.toLower = ['s', 'r', 'c']
    decide
  isTagBlank_blanks := by simp

/-- The image in a paragraph. -/
theorem bundleImages_replaces_source_in_paragraph :
    ∃ content before between after result,
      ∃ hquote : '"' ∉ (assetPath content ⟨"x.png"⟩).text.toList,
        picture.read? ⟨"x.png"⟩ = some content ∧
        bundleImages picture none "<p>" {} = .ok (before, between) ∧
        bundleImages picture none "</p>"
          (between.insertNew (assetPath content ⟨"x.png"⟩) content) = .ok (after, result) ∧
        bundleImages picture none "<p><img alt=\"b\" src=\"x.png\"/></p>" {} =
          .ok (before ++ String.ofList ((pictureTag ['b'] (by decide)).withSource
            (assetPath content ⟨"x.png"⟩).text.toList hquote).text ++ after, result) ∧
        (result.get? (assetPath content ⟨"x.png"⟩)).isSome = true := by
  have hreads : ∀ p, picture.isFile p = true → (picture.read? p).isSome = true := by
    intro p hp
    have hx : p = ⟨"x.png"⟩ := of_decide_eq_true hp
    simp [picture, hx]
  have hfront : EndsImages ['<', 'p', '>'] := by
    rintro rest hrest ⟨blanks, word, more, hblanks, hlower, heq⟩
    obtain rfl : rest = ['p', '>'] := by simpa [List.suffix_cons_iff] using hrest
    cases blanks with
    | nil =>
      cases word with
      | nil => cases hlower
      | cons c word =>
        obtain rfl : 'p' = c := (List.cons.inj heq).1
        exact absurd (List.cons.inj hlower).1 (by decide)
    | cons c blanks =>
      obtain rfl : 'p' = c := (List.cons.inj heq).1
      cases hblanks 'p' List.mem_cons_self
  have hplain : (pictureTag ['b'] (by decide)).IsPlain := by
    refine ⟨by decide, fun a ha front c back hsplit hc => ?_⟩
    obtain rfl := List.mem_singleton.1 ha
    change ['b'] = front ++ c :: back at hsplit
    have hmem : c ∈ ['b'] := by
      rw [hsplit]
      simp
    obtain rfl := List.mem_singleton.1 hmem
    cases hc
  have hname : ((⟨"x.png"⟩ : Path).fileName?.getD "").toList = ['x', '.', 'p', 'n', 'g'] := by
    decide
  refine bundleImages_replaces_source hreads none {} (by decide) hfront hplain ?_
  rw [hname]
  change ∀ c ∈ ['x', '.', 'p', 'n', 'g'], c ≠ '\\' ∧ c ≠ '"'
  simp

/-- A tag with the characters of its end in a value is not met as a whole. Its image is
found among the files, and stays where it is. -/
theorem pictureTag_with_end_is_left :
    locate? picture none (pictureTag ['a', '/', '>', 'b'] (by decide)).source.value =
        some ⟨"x.png"⟩ ∧
      (picture.read? ⟨"x.png"⟩).isSome = true ∧
      bundleImages picture none
        (String.ofList (pictureTag ['a', '/', '>', 'b'] (by decide)).text) {} =
        .ok ("<img alt=\"a/>b\" src=\"x.png\"/>", {}) :=
  ⟨by decide, by decide, by rfl⟩

end RegisterMap.Html
