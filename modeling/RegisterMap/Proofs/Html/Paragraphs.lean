import Mathlib.Data.List.TakeWhile
import RegisterMap.Html.Description
import RegisterMap.Proofs.Html.Nested
import RegisterMap.Proofs.Text.Split

/-!
The paragraphs of a description. Only a blank one has none, and it is their number alone that
the tags of its markup depend on.
-/

namespace RegisterMap

namespace Text

theorem trim_eq_nil_iff (cs : List Char) : trim cs = [] ↔ allBlank cs = true := by
  unfold trim allBlank
  rw [List.reverse_eq_nil_iff, List.dropWhile_eq_nil_iff, List.all_eq_true]
  simp only [List.mem_reverse]
  constructor
  · intro h
    have hnone : cs.dropWhile isBlank = [] := by
      by_contra hne
      have hhead := List.head_dropWhile_not isBlank hne
      rw [h _ (List.head_mem hne)] at hhead
      cases hhead
    exact List.dropWhile_eq_nil_iff.1 hnone
  · exact fun h c hc => h c ((List.dropWhile_suffix isBlank).mem hc)

theorem trim_map {g : Char → Char} (h : ∀ c, isBlank (g c) = isBlank c) (cs : List Char) :
    trim (cs.map g) = (trim cs).map g := by
  have hcomp : isBlank ∘ g = isBlank := funext h
  unfold trim
  rw [List.dropWhile_map, hcomp, ← List.map_reverse, List.dropWhile_map, hcomp, List.map_reverse]

/-- A text is blank if its lines are. -/
theorem forall_splitAt_blank_iff {sep : Char} (hsep : isBlank sep = true) (cs : List Char) :
    (∀ piece ∈ splitAt sep cs, allBlank piece = true) ↔ allBlank cs = true := by
  induction cs with
  | nil => simp [splitAt, allBlank]
  | cons c rest ih =>
    obtain ⟨piece, pieces, hpieces⟩ := List.exists_cons_of_ne_nil (splitAt_ne_nil sep rest)
    rw [hpieces] at ih
    rw [splitAt, hpieces]
    by_cases hc : c = sep
    · simp_all [allBlank]
    · simp_all [allBlank, and_assoc]

variable {α β : Type} [DecidableEq α] [DecidableEq β]

/-- There is nothing between separators if there are only separators. -/
theorem filter_splitAt_eq_nil_iff (sep : α) (cs : List α) :
    ((splitAt sep cs).filter fun piece => !piece.isEmpty) = [] ↔ ∀ c ∈ cs, c = sep := by
  induction cs with
  | nil => simp [splitAt]
  | cons c rest ih =>
    obtain ⟨piece, pieces, hpieces⟩ := List.exists_cons_of_ne_nil (splitAt_ne_nil sep rest)
    rw [hpieces] at ih
    rw [splitAt, hpieces]
    by_cases hc : c = sep
    · simpa [hc] using ih
    · simp [hc]

/-- The pieces of a list whose separators stay separators, and nothing else becomes one. -/
theorem splitAt_map {g : α → β} {sep : α} {sep' : β} (h : ∀ c, g c = sep' ↔ c = sep)
    (cs : List α) : splitAt sep' (cs.map g) = (splitAt sep cs).map (List.map g) := by
  induction cs with
  | nil => rfl
  | cons c rest ih =>
    obtain ⟨piece, pieces, hpieces⟩ := List.exists_cons_of_ne_nil (splitAt_ne_nil sep rest)
    rw [hpieces] at ih
    rw [List.map_cons, splitAt, splitAt, ih, hpieces]
    by_cases hc : c = sep
    · simp [hc, (h sep).2 rfl]
    · simp [hc, mt (h c).1 hc]

end Text

namespace Html

/-- A description counts as none just if it has no paragraph. -/
theorem paragraphs_eq_nil_iff (cs : List Char) :
    paragraphs cs = [] ↔ Text.allBlank cs = true := by
  rw [paragraphs, Text.filter_splitAt_eq_nil_iff, List.forall_mem_map]
  simp only [Text.trim_eq_nil_iff]
  exact Text.forall_splitAt_blank_iff (by decide) cs

/-- Whatever a paragraph says, it has the same tags. -/
theorem alike_paragraph (lines lines' : List (List Char)) :
    Alike [] (paragraph lines) (paragraph lines') :=
  .cons (.plain (by decide) (by decide) (.text _ _)) (.text _ _)

theorem sameTags_plainText {text text' : String}
    (h : (paragraphs text.toList).length = (paragraphs text'.toList).length) :
    SameTags [] (plainText text) (plainText text') := by
  have hrelated : List.Forall₂ (fun _ _ => True) (paragraphs text.toList)
      (paragraphs text'.toList) := List.forall₂_iff_get.2 ⟨h, fun _ _ _ => trivial⟩
  exact Alike.flatMap hrelated fun lines lines' _ => alike_paragraph lines lines'

/-! Other words for a text. -/

/-- Other words that come in as many paragraphs. -/
def KeepsParagraphs (f : String → String) : Prop :=
  ∀ text, (paragraphs (f text).toList).length = (paragraphs text.toList).length

theorem KeepsParagraphs.allBlank_eq {f : String → String} (h : KeepsParagraphs f)
    (text : String) : Text.allBlank (f text).toList = Text.allBlank text.toList := by
  rw [Bool.eq_iff_iff, ← paragraphs_eq_nil_iff, ← paragraphs_eq_nil_iff,
    ← List.length_eq_zero_iff, h text, List.length_eq_zero_iff]

/-- Characters that are replaced one by one, blanks by the same blanks. -/
theorem keepsParagraphs_map {g : Char → Char} (hblank : ∀ c, Text.isBlank (g c) = Text.isBlank c)
    (hline : ∀ c, g c = '\n' ↔ c = '\n') :
    KeepsParagraphs fun text => String.ofList (text.toList.map g) := by
  intro text
  have hlines (line : List Char) : line.map g = [] ↔ line = [] := List.map_eq_nil_iff
  have htrim : (fun line => Text.trim line) ∘ List.map g =
      List.map g ∘ fun line => Text.trim line :=
    funext fun line => Text.trim_map hblank line
  have hpieces : ((fun run : List (List Char) => !run.isEmpty) ∘ List.map (List.map g)) =
      fun run => !run.isEmpty := by
    funext run
    cases run <;> rfl
  simp only [String.toList_ofList, paragraphs]
  rw [Text.splitAt_map hline, List.map_map, htrim, ← List.map_map, Text.splitAt_map hlines,
    List.filter_map, hpieces, List.length_map]

/-- A text with underscores for its marks. -/
def unmarked (text : String) : String :=
  String.ofList (text.toList.map fun c => if isMark c then '_' else c)

theorem keepsParagraphs_unmarked : KeepsParagraphs unmarked := by
  refine keepsParagraphs_map (fun c => ?_) fun c => ?_
  · by_cases h : isMark c = true
    · rw [if_pos h]
      simp only [isMark, Bool.or_eq_true, beq_iff_eq] at h
      rcases h with ((rfl | rfl) | rfl) | rfl <;> decide
    · rw [if_neg h]
  · by_cases h : isMark c = true
    · rw [if_pos h]
      simp only [isMark, Bool.or_eq_true, beq_iff_eq] at h
      rcases h with ((rfl | rfl) | rfl) | rfl <;> decide
    · rw [if_neg h]

end Html

end RegisterMap
