import RegisterMap.Proofs.Html.Cut
import RegisterMap.Proofs.Html.Files
import RegisterMap.Proofs.Html.PlainText
import RegisterMap.Proofs.Html.SourceSearch

/-!
Bundled descriptions as edited texts. A description comes out as it was, except in some ranges
that lie apart from each other. Each of them is the whole value of a source between its two
quotes, in the tag of an image, and its file is found; the path of the copy comes in its place.
-/

namespace RegisterMap.Html

/-- A source that is changed: its tag, where that begins in the text, and the file that it
leads to with what is in it. -/
structure Edit where
  position : Nat
  tag : FoundTag
  file : Path
  content : ByteArray

namespace Edit

/-- Where the value of the source begins, right behind its first quote. -/
def start (e : Edit) : Nat := e.position + e.tag.source.before.length

/-- Where the value ends, in front of its second quote. -/
def stop (e : Edit) : Nat := e.start + e.tag.value.length

/-- What comes in the place of the value. -/
def text (e : Edit) : List Char :=
  ("content/" ++ assetName e.content e.file).toList.map fun c => if c = '\\' then '/' else c

/-- Where the tag of an edit ends. -/
def tagEnd (e : Edit) : Nat := e.position + e.tag.text.length

/-- The tag is in the text, where it is recognised around the value of the source, and this
leads to the file. -/
structure IsFound (view : FileView) (origin : Option Path) (cs : List Char) (e : Edit) : Prop where
  prefix_drop : e.tag.text <+: cs.drop e.position
  matched : imageSource? (cs.drop e.position) = some (e.tag.source, e.tag.text.length)
  located : locate? view origin e.tag.value = some e.file
  content_eq : view.read? e.file = some e.content

/-- The range of an edit is the text between two quotes of its kind. -/
def IsQuoted (cs : List Char) (e : Edit) : Prop :=
  ∃ front back, cs = front ++ e.tag.quote :: (e.tag.value ++ e.tag.quote :: back) ∧
    e.start = front.length + 1

theorem position_lt_start (e : Edit) : e.position < e.start := by
  simp [start, FoundTag.source]

theorem stop_lt_tagEnd (e : Edit) : e.stop < e.tagEnd := by
  simp [stop, start, tagEnd, FoundTag.text, FoundTag.source]
  omega

end Edit

/-- A text from a position on, with other texts in the ranges of some edits. -/
def edited (cs : List Char) : Nat → List Edit → List Char
  | position, [] => cs.drop position
  | position, e :: rest =>
    (cs.drop position).take (e.start - position) ++ (e.text ++ edited cs e.stop rest)

/-- The edits of a text from a position on. Their ranges come one after the other, and none
touches the next; and wherever the tag of an image with a file begins, it is that of an edit or
begins inside one. -/
structure AreEdits (view : FileView) (origin : Option Path) (cs : List Char) (position : Nat)
    (edits : List Edit) : Prop where
  apart : edits.Pairwise fun d e => d.stop < e.start
  isFound : ∀ e ∈ edits, e.IsFound view origin cs
  position_le : ∀ e ∈ edits, position ≤ e.position
  complete : ∀ i, position ≤ i → (foundImage? view origin (cs.drop i)).isSome = true →
    ∃ e ∈ edits, e.position ≤ i ∧ i < e.tagEnd

theorem foundImage?_eq_some {view : FileView} {origin : Option Path} {cs : List Char}
    {image : FoundImage} {length : Nat} (h : foundImage? view origin cs = some (image, length)) :
    imageSource? cs = some (image.source, length) ∧
      locate? view origin image.source.value = some image.file := by
  obtain ⟨⟨source, n⟩, hsource, hlocated⟩ := Option.bind_eq_some_iff.1 h
  obtain ⟨file, hfile, heq⟩ := Option.bind_eq_some_iff.1 hlocated
  cases heq
  exact ⟨hsource, hfile⟩

theorem length_pos_of_foundImage? {view : FileView} {origin : Option Path} (rest : List Char)
    (image : FoundImage) (length : Nat)
    (h : foundImage? view origin ('<' :: rest) = some (image, length)) : 0 < length := by
  obtain ⟨tag, _, _, _, rfl⟩ := of_imageSource?_eq_some (foundImage?_eq_some h).1
  exact List.length_pos_iff.2 tag.text_ne_nil

theorem exists_cons_of_foundImage? {view : FileView} {origin : Option Path} {cs : List Char}
    (h : (foundImage? view origin cs).isSome = true) : ∃ rest, cs = '<' :: rest := by
  obtain ⟨⟨image, length⟩, hfound⟩ := Option.isSome_iff_exists.1 h
  obtain ⟨tag, rest, rfl, _⟩ := of_imageSource?_eq_some (foundImage?_eq_some hfound).1
  exact ⟨_, rfl⟩

/-- No image is found where no tag begins. -/
theorem foundImage?_drop_eq_none {view : FileView} {origin : Option Path}
    {front kept more : List Char} (h : '<' ∉ kept) {i : Nat} (hfront : front.length ≤ i)
    (hkept : i < (front ++ kept).length) :
    foundImage? view origin ((front ++ (kept ++ more)).drop i) = none := by
  obtain ⟨j, rfl⟩ := Nat.le.dest hfront
  rw [List.length_append, Nat.add_lt_add_iff_left] at hkept
  rw [List.drop_length_add_append, List.drop_append_of_le_length hkept.le]
  by_contra hfound
  obtain ⟨rest, hrest⟩ := exists_cons_of_foundImage? (Option.ne_none_iff_isSome.1 hfound)
  rw [List.drop_eq_getElem_cons hkept] at hrest
  exact h ((List.cons.inj hrest).1 ▸ List.getElem_mem hkept)

section Ranges

variable {view : FileView} {origin : Option Path} {cs : List Char} {e : Edit}
  {edits : List Edit}

theorem Edit.IsFound.isQuoted (h : e.IsFound view origin cs) : e.IsQuoted cs := by
  obtain ⟨rest, hrest⟩ := h.prefix_drop
  have hinside : e.position < cs.length := by
    rw [← List.drop_eq_nil_iff.not.trans Nat.not_le, ← hrest]
    simp [e.tag.text_ne_nil]
  refine ⟨cs.take e.position ++ '<' :: (e.tag.blanks ++ (e.tag.word ++ (e.tag.front ++
    (e.tag.name ++ (e.tag.beforeSign ++ '=' :: e.tag.behindSign))))),
    e.tag.back ++ ['/', '>'] ++ rest, ?_, ?_⟩
  · conv_lhs => rw [← List.take_append_drop e.position cs, ← hrest]
    simp [FoundTag.text, FoundTag.source, QuotedSource.lead]
  · simp [Edit.start, FoundTag.source, QuotedSource.lead]
    omega

/-- What is in front of all edits stays. -/
theorem edited_append {position : Nat} {kept more : List Char}
    (hcs : cs.drop position = kept ++ more)
    (hedits : ∀ e ∈ edits, position + kept.length ≤ e.start) :
    edited cs position edits = kept ++ edited cs (position + kept.length) edits := by
  have hmore : cs.drop (position + kept.length) = more := by
    rw [← List.drop_drop, hcs, List.drop_left]
  cases edits with
  | nil => rw [edited, edited, hcs, hmore]
  | cons e rest =>
    obtain ⟨n, hn⟩ := Nat.le.dest (hedits e List.mem_cons_self)
    have hlong : e.start - position = kept.length + n := by omega
    have hshort : e.start - (position + kept.length) = n := by omega
    rw [edited, edited, hlong, hshort, hcs, hmore, List.take_length_add_append, List.append_assoc]

namespace AreEdits

theorem nil {front back : List Char} (h : '<' ∉ back) :
    AreEdits view origin (front ++ back) front.length [] where
  apart := .nil
  isFound := nofun
  position_le := nofun
  complete i hi hfound := by
    obtain ⟨j, rfl⟩ := Nat.le.dest hi
    rw [List.drop_length_add_append] at hfound
    obtain ⟨rest, hrest⟩ := exists_cons_of_foundImage? hfound
    exact absurd (List.mem_of_mem_drop (hrest ▸ List.mem_cons_self)) h

/-- The edits are the same from further in front on, where no image is found between. -/
theorem of_le {position position' : Nat} (h : AreEdits view origin cs position edits)
    (hle : position' ≤ position)
    (hnone : ∀ i, position' ≤ i → i < position → foundImage? view origin (cs.drop i) = none) :
    AreEdits view origin cs position' edits where
  apart := h.apart
  isFound := h.isFound
  position_le e he := hle.trans (h.position_le e he)
  complete i hi hfound := by
    by_cases hbehind : position ≤ i
    · exact h.complete i hbehind hfound
    · rw [hnone i hi (Nat.lt_of_not_le hbehind)] at hfound
      cases hfound

/-- One more edit in front, with its tag. -/
theorem cons (he : e.IsFound view origin cs) (h : AreEdits view origin cs e.tagEnd edits) :
    AreEdits view origin cs e.position (e :: edits) where
  apart := List.pairwise_cons.2 ⟨fun d hd => by
    have hbehind := h.position_le d hd
    have hstop := e.stop_lt_tagEnd
    have hstart := d.position_lt_start
    omega, h.apart⟩
  isFound := List.forall_mem_cons.2 ⟨he, h.isFound⟩
  position_le := List.forall_mem_cons.2 ⟨le_rfl, fun d hd => by
    have hbehind := h.position_le d hd
    have hposition := e.position_lt_start
    have hstop := e.stop_lt_tagEnd
    have hstart : e.start ≤ e.stop := Nat.le_add_right _ _
    omega⟩
  complete i hi hfound := by
    by_cases hbehind : e.tagEnd ≤ i
    · obtain ⟨d, hd, hinside⟩ := h.complete i hbehind hfound
      exact ⟨d, List.mem_cons_of_mem e hd, hinside⟩
    · exact ⟨e, List.mem_cons_self, hi, Nat.lt_of_not_le hbehind⟩

/-- A text up to the tags of its edits stays. -/
theorem edited_eq {front kept more : List Char}
    (h : AreEdits view origin (front ++ (kept ++ more)) (front ++ kept).length edits) :
    edited (front ++ (kept ++ more)) front.length edits =
      kept ++ edited (front ++ (kept ++ more)) (front ++ kept).length edits := by
  rw [List.length_append] at h ⊢
  refine edited_append List.drop_left fun e he => ?_
  exact (h.position_le e he).trans e.position_lt_start.le

end AreEdits

/-- A text with its first edit made, up to the end of the tag. -/
theorem edited_cons {front behind : List Char} {e : Edit}
    (hposition : e.position = front.length) (hcs : cs = front ++ (e.tag.text ++ behind))
    (h : AreEdits view origin cs e.tagEnd edits) :
    edited cs e.position (e :: edits) =
      e.tag.source.before ++ e.text ++ e.tag.source.after ++ edited cs e.tagEnd edits := by
  have hdrop : cs.drop e.position =
      e.tag.source.before ++ (e.tag.value ++ (e.tag.source.after ++ behind)) := by
    rw [hcs, hposition, List.drop_left, FoundTag.text, List.append_assoc, List.append_assoc]
    rfl
  have hbefore : e.start - e.position = e.tag.source.before.length := Nat.add_sub_cancel_left _ _
  have hafter : cs.drop e.stop = e.tag.source.after ++ behind := by
    rw [Edit.stop, Edit.start, ← List.drop_drop, ← List.drop_drop, hdrop, List.drop_left,
      List.drop_left]
  have hend : e.stop + e.tag.source.after.length = e.tagEnd := by
    simp [Edit.stop, Edit.start, Edit.tagEnd, FoundTag.text, FoundTag.source]
    omega
  rw [edited, hbefore, hdrop, List.take_left, edited_append hafter, hend]
  · simp
  · intro d hd
    rw [hend]
    exact (h.position_le d hd).trans d.position_lt_start.le

end Ranges

/-- Where an image is found whose file can be read, there is an edit. -/
theorem exists_isFound {view : FileView} {origin : Option Path} {cs front rest : List Char}
    {image : FoundImage} {length : Nat} {content : ByteArray} (hcs : cs = front ++ '<' :: rest)
    (h : foundImage? view origin ('<' :: rest) = some (image, length + 1))
    (hcontent : view.read? image.file = some content) :
    ∃ tag : FoundTag, '<' :: rest = tag.text ++ rest.drop length ∧ image.source = tag.source ∧
      Edit.IsFound view origin cs ⟨front.length, tag, image.file, content⟩ := by
  obtain ⟨hmatched, hlocated⟩ := foundImage?_eq_some h
  obtain ⟨tag, behind, hrest, hsource, hlength⟩ := of_imageSource?_eq_some hmatched
  have hbehind : rest.drop length = behind := by
    rw [← List.drop_succ_cons (a := '<'), hrest, hlength, List.drop_left]
  have hdrop : cs.drop front.length = tag.text ++ behind := by
    rw [hcs, List.drop_left, hrest]
  rw [hsource] at hlocated
  rw [hsource, hlength, hrest, ← hdrop] at hmatched
  exact ⟨tag, hbehind ▸ hrest, hsource, hdrop ▸ List.prefix_append _ _, hmatched, hlocated,
    hcontent⟩

/-- The path of a copy, as a source. -/
theorem sourceOf_assetPath (e : Edit) : sourceOf (assetPath e.content e.file) = e.text := by
  rw [assetPath_eq]
  rfl

section Pieces

variable {view : FileView} {origin : Option Path} {assets result : FileSet}
  {kept chars : List Char} {pieces : List (Piece FoundImage)}

theorem bundlePieces_chars_append_eq_ok
    (h : bundlePieces view assets (kept.map Piece.char ++ pieces) = .ok (chars, result)) :
    ∃ chars', bundlePieces view assets pieces = .ok (chars', result) ∧ chars = kept ++ chars' := by
  rw [bundlePieces_chars_append] at h
  cases hpieces : bundlePieces view assets pieces with
  | error e =>
    rw [hpieces] at h
    cases h
  | ok bundled =>
    rw [hpieces] at h
    cases h
    exact ⟨bundled.1, rfl, rfl⟩

/-- From any place on that no tag goes over, a text comes out edited. -/
theorem exists_edits_of_bundlePieces {cs front back : List Char} (hcs : cs = front ++ back)
    (h : bundlePieces view assets (cut (foundImage? view origin) 0 back) = .ok (chars, result)) :
    ∃ edits, AreEdits view origin cs front.length edits ∧
      chars = edited cs front.length edits := by
  induction back using cut_induction (foundImage? view origin) length_pos_of_foundImage?
    generalizing front assets chars with
  | done back hback =>
    rw [cut_of_not_mem hback, bundlePieces_chars] at h
    cases h
    refine ⟨[], hcs ▸ .nil hback, ?_⟩
    rw [edited, hcs, List.drop_left]
  | stays kept rest hkept hnone ih =>
    rw [cut_kept_of_none hkept hnone] at h
    obtain ⟨chars', hrest, rfl⟩ := bundlePieces_chars_append_eq_ok h
    have hnext : cs = front ++ ((kept ++ ['<']) ++ rest) := by rw [hcs]; simp
    obtain ⟨edits, hedits, rfl⟩ := ih (hnext.trans (List.append_assoc _ _ _).symm) hrest
    refine ⟨edits, hedits.of_le (by simp) fun i hfront hi => ?_, ?_⟩
    · by_cases hinside : i < (front ++ kept).length
      · rw [hcs]
        exact foundImage?_drop_eq_none hkept hfront hinside
      · have hlast : i = (front ++ kept).length := by
          simp only [List.length_append, List.length_singleton] at hi hinside ⊢
          omega
        rw [hcs, ← List.append_assoc, hlast, List.drop_left, hnone]
    · rw [hnext] at hedits ⊢
      exact hedits.edited_eq.symm
  | tag kept rest image length hkept htag ih =>
    rw [cut_kept_of_some hkept htag] at h
    obtain ⟨_, htagged, rfl⟩ := bundlePieces_chars_append_eq_ok h
    obtain ⟨_, _, chars', hpiece, hrest, rfl⟩ := bundlePieces_cons_eq_ok htagged
    obtain ⟨content, hcontent, rfl, rfl⟩ := bundlePiece_tag_eq_ok hpiece
    have hnext : cs = (front ++ kept) ++ '<' :: rest := hcs.trans (List.append_assoc _ _ _).symm
    obtain ⟨tag, htext, hsource, hfound⟩ := exists_isFound hnext htag hcontent
    rw [htext] at hnext hcs
    let e : Edit := ⟨(front ++ kept).length, tag, image.file, content⟩
    have hend : (front ++ kept ++ tag.text).length = e.tagEnd := List.length_append
    have hbehind : cs = (front ++ kept ++ tag.text) ++ rest.drop length :=
      hnext.trans (List.append_assoc _ _ _).symm
    obtain ⟨edits, hedits, rfl⟩ := ih hbehind hrest
    rw [hend] at hedits ⊢
    have hfirst := AreEdits.cons hfound hedits
    refine ⟨e :: edits, hfirst.of_le (by simp) fun i hfront hi => ?_, ?_⟩
    · rw [hcs]
      exact foundImage?_drop_eq_none hkept hfront hi
    · rw [sourceOf_assetPath e, hsource, ← edited_cons rfl hnext hedits]
      rw [hcs] at hfirst ⊢
      exact hfirst.edited_eq.symm

end Pieces

end RegisterMap.Html
