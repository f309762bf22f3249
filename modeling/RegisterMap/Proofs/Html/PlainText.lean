import Mathlib.Data.List.Infix
import Mathlib.Tactic.Common
import RegisterMap.Html.Description
import RegisterMap.Proofs.Html.Nested

/-!
Descriptions that are plain text. Their markup has no tags but those of its
paragraphs: there is no heading to be moved and no image to be looked for, so
that nothing about them can fail.
-/

namespace RegisterMap.Html

/-- Where no tag matches at any `<`, all characters stay. -/
theorem cut_of_no_tag {tag? : List Char → Option (α × Nat)} {cs : List Char}
    (h : ∀ rest, '<' :: rest <:+ cs → tag? ('<' :: rest) = none) :
    cut tag? 0 cs = cs.map Piece.char := by
  induction cs with
  | nil => rfl
  | cons c rest ih =>
    have hrest := ih fun more hmore => h more (hmore.trans (List.suffix_cons c rest))
    have hnone : (if c = '<' then tag? (c :: rest) else none) = none := by
      split
      case isTrue hc =>
        subst hc
        exact h rest (List.suffix_refl _)
      case isFalse => rfl
    rw [cut, hnone, hrest]
    rfl

/-- The only tags of a fragment are those around paragraphs. -/
def HasOnlyParagraphs (cs : List Char) : Prop :=
  ∀ rest, '<' :: rest <:+ cs → ['p', '>'] <+: rest ∨ ['/', 'p', '>'] <+: rest

namespace HasOnlyParagraphs

theorem of_not_mem {cs : List Char} (h : '<' ∉ cs) : HasOnlyParagraphs cs :=
  fun _ hsuffix => absurd (hsuffix.mem List.mem_cons_self) h

theorem append {front back : List Char} (hfront : HasOnlyParagraphs front)
    (hback : HasOnlyParagraphs back) : HasOnlyParagraphs (front ++ back) := by
  rintro rest ⟨before, heq⟩
  rcases List.append_eq_append_iff.1 heq with ⟨inside, hbefore, htag⟩ | ⟨inside, _, htag⟩
  · cases inside with
    | nil => exact hback rest ⟨[], htag⟩
    | cons c more =>
      obtain ⟨rfl, rfl⟩ := List.cons.inj htag
      rcases hfront more ⟨before, hbefore.symm⟩ with h | h
      · exact Or.inl (h.trans (List.prefix_append more back))
      · exact Or.inr (h.trans (List.prefix_append more back))
  · exact hback rest ⟨inside, htag.symm⟩

end HasOnlyParagraphs

theorem not_mem_escape (text : String) : '<' ∉ (escape text).toList := by
  intro h
  have hplain := isPlain_escape text '<' h
  revert hplain
  decide

theorem hasOnlyParagraphs_plainText (text : String) :
    HasOnlyParagraphs (plainText text).toList := by
  unfold plainText Markup.renderAll
  rw [String.toList_join]
  induction paragraphs text.toList with
  | nil => exact .of_not_mem (by simp [Markup.allPieces])
  | cons lines rest ih =>
    have hopen : HasOnlyParagraphs ['<', 'p', '>'] := by
      intro more hmore
      simp [List.suffix_cons_iff] at hmore
      simp [hmore]
    have hclose : HasOnlyParagraphs ['<', '/', 'p', '>'] := by
      intro more hmore
      simp [List.suffix_cons_iff] at hmore
      simp [hmore]
    exact hopen.append ((HasOnlyParagraphs.of_not_mem (not_mem_escape _)).append (hclose.append
      ((HasOnlyParagraphs.of_not_mem (not_mem_escape "\n")).append ih)))

/-! What is looked for in a description is not found. -/

theorem ofChars?_paragraph (closes : Bool) (more : List Char) :
    Heading.ofChars? closes ('p' :: '>' :: more) = none := by
  cases more with
  | nil => rfl
  | cons c rest =>
    unfold Heading.ofChars?
    split
    · next heq =>
      obtain ⟨rfl, _⟩ := List.cons.inj heq
      simp
    · rfl

theorem headingTag?_eq_none {cs rest : List Char} (h : HasOnlyParagraphs cs)
    (hrest : '<' :: rest <:+ cs) : Heading.tag? ('<' :: rest) = none := by
  rcases h rest hrest with ⟨more, rfl⟩ | ⟨more, rfl⟩
  · change (Heading.ofChars? false ('p' :: '>' :: more)).map _ = none
    rw [ofChars?_paragraph, Option.map_none]
  · change (Heading.ofChars? true ('p' :: '>' :: more)).map _ = none
    rw [ofChars?_paragraph, Option.map_none]

theorem imageTag?_eq_none {cs rest : List Char} (h : HasOnlyParagraphs cs)
    (hrest : '<' :: rest <:+ cs) : imageTag? ('<' :: rest) = none := by
  rcases h rest hrest with ⟨more, rfl⟩ | ⟨more, rfl⟩
  · rfl
  · rfl

theorem promoteHeadings_plainText (levels : Nat) (text : String) :
    promoteHeadings levels (plainText text) = plainText text := by
  have honly := hasOnlyParagraphs_plainText text
  unfold promoteHeadings
  split
  · rfl
  · rw [cut_of_no_tag fun rest hrest => headingTag?_eq_none honly hrest, List.flatMap_map]
    simp

/-- Characters stay in front of whatever else there is. -/
theorem bundlePieces_chars_append (view : FileView) (assets : FileSet) (cs : List Char)
    (pieces : List (Piece FoundImage)) :
    bundlePieces view assets (cs.map Piece.char ++ pieces) =
      (bundlePieces view assets pieces).map fun bundled => (cs ++ bundled.1, bundled.2) := by
  induction cs with
  | nil => cases hpieces : bundlePieces view assets pieces <;> simp [hpieces, Except.map]
  | cons c rest ih =>
    rw [List.map_cons, List.cons_append, bundlePieces]
    change (bundlePieces view assets (rest.map Piece.char ++ pieces)).bind _ = _
    rw [ih]
    cases bundlePieces view assets pieces <;> rfl

theorem bundlePieces_chars (view : FileView) (assets : FileSet) (cs : List Char) :
    bundlePieces view assets (cs.map Piece.char) = .ok (cs, assets) := by
  rw [← List.append_nil (cs.map Piece.char), bundlePieces_chars_append, bundlePieces]
  exact congrArg (fun chars => Except.ok (chars, assets)) (List.append_nil cs)

theorem bundleImages_plainText (view : FileView) (origin : Option Path) (text : String)
    (assets : FileSet) :
    bundleImages view origin (plainText text) assets = .ok (plainText text, assets) := by
  have honly := hasOnlyParagraphs_plainText text
  have hnone : ∀ rest, '<' :: rest <:+ (plainText text).toList →
      foundImage? view origin ('<' :: rest) = none := by
    intro rest hrest
    simp [foundImage?, imageSource?, imageTag?_eq_none honly hrest]
  unfold bundleImages
  rw [cut_of_no_tag hnone, bundlePieces_chars]
  change Except.ok (String.ofList (plainText text).toList, assets) = _
  rw [String.ofList_toList]

end RegisterMap.Html
