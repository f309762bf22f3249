import Mathlib.Data.List.Infix
import Mathlib.Tactic.Common
import RegisterMap.Html.Tag

/-!
How a fragment is cut at its tags. A cut goes on behind a tag as if it began there, and a
text splits it in two where all tags that begin in front of it are decided there and end
there.
-/

namespace RegisterMap.Html

variable {tag? : List Char → Option (α × Nat)} {front back : List Char}

/-- What is skipped has no influence on what follows. -/
theorem cut_eq_cut_drop (tag? : List Char → Option (α × Nat)) (skipped : Nat) (cs : List Char) :
    cut tag? skipped cs = cut tag? 0 (cs.drop skipped) := by
  induction skipped generalizing cs with
  | zero => rfl
  | succ n ih =>
    cases cs with
    | nil => rfl
    | cons c rest => rw [cut, ih, List.drop_succ_cons]

theorem cut_cons_of_ne {c : Char} (hc : c ≠ '<') (rest : List Char) :
    cut tag? 0 (c :: rest) = .char c :: cut tag? 0 rest := by
  rw [cut, if_neg hc]

theorem cut_cons_of_none {rest : List Char} (h : tag? ('<' :: rest) = none) :
    cut tag? 0 ('<' :: rest) = .char '<' :: cut tag? 0 rest := by
  rw [cut, if_pos rfl, h]

theorem cut_cons_of_some {rest : List Char} {a : α} {length : Nat}
    (h : tag? ('<' :: rest) = some (a, length + 1)) :
    cut tag? 0 ('<' :: rest) = .tag a :: cut tag? 0 (rest.drop length) := by
  rw [cut, if_pos rfl, h, ← cut_eq_cut_drop]
  rfl

theorem cut_append_of_some {inside rest : List Char} {a : α}
    (h : tag? ('<' :: (inside ++ rest)) = some (a, inside.length + 1)) :
    cut tag? 0 ('<' :: (inside ++ rest)) = .tag a :: cut tag? 0 rest := by
  rw [cut_cons_of_some h, List.drop_left]

/-- What is in front of the first `<` stays. -/
theorem cut_append_of_not_mem {kept : List Char} (h : '<' ∉ kept) (cs : List Char) :
    cut tag? 0 (kept ++ cs) = kept.map Piece.char ++ cut tag? 0 cs := by
  induction kept with
  | nil => rfl
  | cons c kept ih =>
    obtain ⟨hc, hkept⟩ := not_or.1 (mt List.mem_cons.2 h)
    rw [List.cons_append, cut_cons_of_ne (Ne.symm hc), ih hkept]
    rfl

theorem cut_of_not_mem {cs : List Char} (h : '<' ∉ cs) : cut tag? 0 cs = cs.map Piece.char := by
  rw [← List.append_nil cs, cut_append_of_not_mem h, cut, List.append_nil, List.append_nil]

theorem cut_kept_of_none {kept rest : List Char} (hkept : '<' ∉ kept)
    (h : tag? ('<' :: rest) = none) :
    cut tag? 0 (kept ++ '<' :: rest) =
      (kept ++ ['<']).map Piece.char ++ cut tag? 0 rest := by
  rw [cut_append_of_not_mem hkept, cut_cons_of_none h, List.map_append, List.append_assoc]
  rfl

theorem cut_kept_of_some {kept rest : List Char} {a : α} {length : Nat} (hkept : '<' ∉ kept)
    (h : tag? ('<' :: rest) = some (a, length + 1)) :
    cut tag? 0 (kept ++ '<' :: rest) =
      kept.map Piece.char ++ .tag a :: cut tag? 0 (rest.drop length) := by
  rw [cut_append_of_not_mem hkept, cut_cons_of_some h]

/-- A text is gone through from one `<` to the next, or to what is behind the tag there. -/
theorem cut_induction (tag? : List Char → Option (α × Nat))
    (hlength : ∀ rest a length, tag? ('<' :: rest) = some (a, length) → 0 < length)
    {motive : List Char → Prop} (done : ∀ cs, '<' ∉ cs → motive cs)
    (stays : ∀ kept rest, '<' ∉ kept → tag? ('<' :: rest) = none → motive rest →
      motive (kept ++ '<' :: rest))
    (tag : ∀ kept rest a length, '<' ∉ kept → tag? ('<' :: rest) = some (a, length + 1) →
      motive (rest.drop length) → motive (kept ++ '<' :: rest)) (cs : List Char) : motive cs := by
  -- Tags are passed as a whole, so the induction is on the number of characters ahead.
  induction hn : cs.length using Nat.strong_induction_on generalizing cs with
  | _ n ih =>
    by_cases hmem : '<' ∈ cs
    case neg => exact done cs hmem
    obtain ⟨kept, rest, rfl, hkept⟩ := List.eq_append_cons_of_mem hmem
    rw [List.length_append, List.length_cons] at hn
    cases htag : tag? ('<' :: rest) with
    | none => exact stays kept rest hkept htag (ih rest.length (by omega) rest rfl)
    | some found =>
      obtain ⟨a, length⟩ := found
      obtain ⟨more, rfl⟩ := Nat.exists_eq_succ_of_ne_zero (hlength rest a length htag).ne'
      have hshorter : (rest.drop more).length < n := by
        rw [List.length_drop]
        omega
      exact tag kept rest a more hkept htag (ih _ hshorter _ rfl)

/-- A tag that is cut off was recognised. -/
theorem exists_tag?_of_mem_cut {a : α} {skipped : Nat} {cs : List Char}
    (h : .tag a ∈ cut tag? skipped cs) :
    ∃ rest length, tag? ('<' :: rest) = some (a, length) := by
  induction cs generalizing skipped with
  | nil => cases h
  | cons c rest ih =>
    cases skipped with
    | succ n => exact ih h
    | zero =>
      by_cases hc : c = '<'
      · subst hc
        rw [cut, if_pos rfl] at h
        split at h
        · next found length htag =>
          rcases List.mem_cons.1 h with heq | hrest
          · cases heq
            exact ⟨rest, length, htag⟩
          · exact ih hrest
        · rcases List.mem_cons.1 h with heq | hrest
          · cases heq
          · exact ih hrest
      · rw [cut_cons_of_ne hc] at h
        rcases List.mem_cons.1 h with heq | hrest
        · cases heq
        · exact ih hrest

/-- A text in front of another whose tags can be told from the text alone, and end in it. -/
structure CutsOff (tag? : List Char → Option (α × Nat)) (front back : List Char) : Prop where
  decided : ∀ rest, '<' :: rest <:+ front → tag? ('<' :: rest ++ back) = tag? ('<' :: rest)
  ends : ∀ rest a length, '<' :: rest <:+ front → tag? ('<' :: rest) = some (a, length) →
    length ≤ rest.length + 1

theorem CutsOff.of_cons {c : Char} (h : CutsOff tag? (c :: front) back) :
    CutsOff tag? front back :=
  have hlonger {rest : List Char} (hrest : '<' :: rest <:+ front) : '<' :: rest <:+ c :: front :=
    hrest.trans (List.suffix_cons c front)
  ⟨fun rest hrest => h.decided rest (hlonger hrest),
    fun rest a length hrest => h.ends rest a length (hlonger hrest)⟩

theorem CutsOff.cut_append_of_le (h : CutsOff tag? front back) {skipped : Nat}
    (hskipped : skipped ≤ front.length) :
    cut tag? skipped (front ++ back) = cut tag? skipped front ++ cut tag? 0 back := by
  induction front generalizing skipped with
  | nil =>
    obtain rfl : skipped = 0 := by simpa using hskipped
    rfl
  | cons c rest ih =>
    cases skipped with
    | succ n =>
      rw [List.length_cons] at hskipped
      exact ih h.of_cons (by omega)
    | zero =>
      by_cases hc : c = '<'
      · subst hc
        have hself := List.suffix_refl ('<' :: rest)
        have hdecided := h.decided rest hself
        rw [List.cons_append] at hdecided ⊢
        rw [cut, if_pos rfl, cut, if_pos rfl, hdecided]
        cases htag : tag? ('<' :: rest) with
        | none => exact congrArg (.char '<' :: ·) (ih h.of_cons (Nat.zero_le _))
        | some found =>
          obtain ⟨a, length⟩ := found
          have hends := h.ends rest a length hself htag
          have hinside : length - 1 ≤ rest.length := by omega
          exact congrArg (.tag a :: ·) (ih h.of_cons hinside)
      · rw [List.cons_append, cut_cons_of_ne hc, cut_cons_of_ne hc,
          ih h.of_cons (Nat.zero_le _), List.cons_append]

theorem CutsOff.cut_append (h : CutsOff tag? front back) :
    cut tag? 0 (front ++ back) = cut tag? 0 front ++ cut tag? 0 back :=
  h.cut_append_of_le (Nat.zero_le _)

end RegisterMap.Html
