import Mathlib.Tactic.Common
import RegisterMap.Text.Blank

/-!
The pieces of a text between the occurrences of a separator. Where a text is put
together with a separator in the middle, its pieces are those of its two parts.
-/

namespace RegisterMap.Text

variable {α : Type} [DecidableEq α] {sep : α}

theorem splitAt_append_sep (front rest : List α) :
    splitAt sep (front ++ sep :: rest) = splitAt sep front ++ splitAt sep rest := by
  induction front with
  | nil => simp [splitAt]
  | cons c more ih =>
    rw [List.cons_append, splitAt, splitAt, ih]
    split
    · rfl
    · obtain ⟨piece, pieces, hpieces⟩ := List.exists_cons_of_ne_nil (splitAt_ne_nil sep more)
      rw [hpieces]
      rfl

/-- What a list starts with that is no separator, its first piece starts with. -/
theorem splitAt_append {front : List α} (h : sep ∉ front) (rest : List α) :
    ∃ piece pieces, splitAt sep rest = piece :: pieces ∧
      splitAt sep (front ++ rest) = (front ++ piece) :: pieces := by
  obtain ⟨piece, pieces, hpieces⟩ := List.exists_cons_of_ne_nil (splitAt_ne_nil sep rest)
  refine ⟨piece, pieces, hpieces, ?_⟩
  induction front with
  | nil => exact hpieces
  | cons c more ih =>
    obtain ⟨hc, hmore⟩ := List.ne_and_not_mem_of_not_mem_cons h
    rw [List.cons_append, splitAt, if_neg (Ne.symm hc), ih hmore]
    rfl

theorem splitAt_of_not_mem {cs : List α} (h : sep ∉ cs) : splitAt sep cs = [cs] := by
  obtain ⟨piece, pieces, hnil, happend⟩ := splitAt_append h []
  obtain ⟨rfl, rfl⟩ : piece = [] ∧ pieces = [] := by simpa [splitAt] using hnil.symm
  simpa using happend

/-- Pieces without a separator are split as they were joined. -/
theorem splitAt_joinWith {pieces : List (List α)}
    (hne : pieces ≠ []) (h : ∀ piece ∈ pieces, sep ∉ piece) :
    splitAt sep (joinWith sep pieces) = pieces := by
  induction pieces with
  | nil => exact absurd rfl hne
  | cons piece rest ih =>
    obtain ⟨hpiece, hrest⟩ := List.forall_mem_cons.1 h
    cases rest with
    | nil => exact splitAt_of_not_mem hpiece
    | cons next more =>
      rw [joinWith, splitAt_append_sep, splitAt_of_not_mem hpiece,
        ih (List.cons_ne_nil next more) hrest]
      · rfl
      · exact List.cons_ne_nil next more

theorem not_mem_of_mem_splitAt {cs : List α} :
    ∀ piece ∈ splitAt sep cs, sep ∉ piece := by
  induction cs with
  | nil => simp [splitAt]
  | cons c rest ih =>
    intro piece hpiece
    rw [splitAt] at hpiece
    split at hpiece
    case isTrue =>
      rcases List.mem_cons.1 hpiece with rfl | hpiece
      · exact List.not_mem_nil
      · exact ih piece hpiece
    case isFalse hc =>
      split at hpiece
      case h_1 hnil => exact absurd hnil (splitAt_ne_nil sep rest)
      case h_2 first others hsplit =>
        rw [hsplit] at ih
        rcases List.mem_cons.1 hpiece with rfl | hpiece
        · simp only [List.mem_cons, not_or]
          exact ⟨Ne.symm hc, ih first List.mem_cons_self⟩
        · exact ih piece (List.mem_cons_of_mem _ hpiece)

/-- The first piece starts with what the text starts with, up to a separator. -/
theorem prefix_head_splitAt_iff {mark cs piece : List α} {pieces : List (List α)}
    (hmark : sep ∉ mark) (h : splitAt sep cs = piece :: pieces) : mark <+: piece ↔ mark <+: cs := by
  constructor
  · intro hpiece
    have hjoin : joinWith sep (piece :: pieces) = cs := h ▸ joinWith_splitAt sep cs
    have hfirst : piece <+: cs := by
      cases pieces with
      | nil => exact ⟨[], by simpa [joinWith] using hjoin⟩
      | cons next others => exact ⟨_, hjoin⟩
    exact hpiece.trans hfirst
  · rintro ⟨rest, rfl⟩
    obtain ⟨first, others, _, happend⟩ := splitAt_append hmark rest
    obtain ⟨rfl, _⟩ := List.cons.inj (h.symm.trans happend)
    exact List.prefix_append mark first

/-- A piece behind a separator starts with a list just where the separator and that list
stand in the text. -/
theorem exists_prefix_tail_splitAt_iff {mark : List α} (hmark : sep ∉ mark) (cs : List α) :
    (∃ piece ∈ (splitAt sep cs).tail, mark <+: piece) ↔ sep :: mark <:+: cs := by
  induction cs with
  | nil => simp [splitAt]
  | cons c more ih =>
    obtain ⟨piece, pieces, hpieces⟩ := List.exists_cons_of_ne_nil (splitAt_ne_nil sep more)
    rw [List.infix_cons_iff, ← ih, splitAt, hpieces, List.tail_cons]
    by_cases hc : c = sep
    · subst hc
      rw [if_pos rfl, List.tail_cons, List.prefix_cons_inj, ← prefix_head_splitAt_iff hmark hpieces]
      simp
    · have hnot : ¬ sep :: mark <+: c :: more := fun h => hc (List.cons_prefix_cons.1 h).1.symm
      simp [if_neg hc, hnot]

end RegisterMap.Text
