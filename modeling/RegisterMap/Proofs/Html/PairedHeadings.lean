import RegisterMap.Proofs.Html.Promotion

/-!
Headings that are closed by a tag of their level. Moving all of them down keeps the pairs
of bare tags. In front of the tag that closes it, an opening tag with attributes is the one
that stays, so that the pair is kept at the last level only.
-/

namespace RegisterMap.Html

namespace HeadingTag

/-- There are six levels of headings. -/
def isHeading (tag : HeadingTag) : Bool := 1 ≤ tag.level && tag.level ≤ 6

/-- A tag that closes is bare. -/
theorem bare_of_ofName? {closes : Bool} {cs : List Char} {tag : HeadingTag}
    (h : ofName? closes cs = some tag) :
    tag.closes = closes ∧ (closes = true → tag.bare = true) := by
  obtain ⟨_, _, _, _, hname, _, rfl⟩ := ofName?_eq_some_iff.1 h
  refine ⟨rfl, fun hcloses => ?_⟩
  rcases hname.next with rfl | ⟨hopens, _⟩
  · rfl
  · cases hcloses.symm.trans hopens

theorem bare_of_behind? {cs : List Char} {tag : HeadingTag} (h : behind? cs = some tag)
    (hcloses : tag.closes = true) : tag.bare = true := by
  unfold behind? at h
  split at h
  · exact (bare_of_ofName? h).2 rfl
  · cases (bare_of_ofName? h).1.symm.trans hcloses

section

variable {levels : Nat} {tag : HeadingTag}

theorem promote_of_bare (h : tag.bare = true) :
    tag.promote levels = { tag with level := min (tag.level + levels) 6 } := if_pos h

theorem promote_of_not_bare (h : tag.bare = false) : tag.promote levels = tag :=
  if_neg (by simp [h])

@[simp] theorem closes_promote : (tag.promote levels).closes = tag.closes := by
  unfold promote
  split <;> rfl

theorem isHeading_promote_of_bare (hlevels : levels ≠ 0) (h : tag.bare = true) :
    (tag.promote levels).isHeading = true := by
  rw [promote_of_bare h]
  simp only [isHeading, Bool.and_eq_true, decide_eq_true_eq]
  omega

end

end HeadingTag

/-- The tags of the headings of a fragment. -/
def headings (html : String) : List HeadingTag := (outline html).filter HeadingTag.isHeading

/-- The tag right behind every opening one closes it. -/
def IsPaired : List HeadingTag → Prop
  | [] => True
  | tag :: rest =>
    (tag.closes = false → ∃ next ∈ rest.head?, next.closes = true ∧ next.level = tag.level) ∧
      IsPaired rest

namespace IsPaired

instance decidable : (tags : List HeadingTag) → Decidable (IsPaired tags)
  | [] => .isTrue trivial
  | _ :: rest => haveI := decidable rest; inferInstanceAs (Decidable (_ ∧ _))

variable {tags rest : List HeadingTag} {tag : HeadingTag}

theorem cons_of_closes (h : tag.closes = true) : IsPaired (tag :: rest) ↔ IsPaired rest := by
  simp [IsPaired, h]

/-- An opening tag is followed by the one that closes it. -/
theorem cons_of_opens {next : HeadingTag} (h : tag.closes = false) (hnext : next.closes = true) :
    IsPaired (tag :: next :: rest) ↔ next.level = tag.level ∧ IsPaired (next :: rest) := by
  simp [IsPaired, h, hnext]

theorem exists_of_opens (hpaired : IsPaired (tag :: rest)) (h : tag.closes = false) :
    ∃ next more, rest = next :: more ∧ next.closes = true ∧ next.level = tag.level := by
  obtain ⟨next, hhead, hcloses, hlevel⟩ := hpaired.1 h
  cases rest with
  | nil => cases hhead
  | cons first more =>
    obtain rfl : first = next := by simpa using hhead
    exact ⟨first, more, rfl, hcloses, hlevel⟩

/-- Leaving out all tags of some levels leaves pairs. -/
theorem filter_isHeading (h : IsPaired tags) : IsPaired (tags.filter HeadingTag.isHeading) := by
  induction tags with
  | nil => trivial
  | cons tag rest ih =>
    have hrest := ih h.2
    cases hkept : tag.isHeading with
    | false => rwa [List.filter_cons_of_neg (by simp [hkept])]
    | true =>
      rw [List.filter_cons_of_pos hkept]
      refine ⟨fun hopens => ?_, hrest⟩
      obtain ⟨next, more, rfl, hcloses, hlevel⟩ := h.exists_of_opens hopens
      have hnext : next.isHeading = true := by
        rw [HeadingTag.isHeading, hlevel]
        exact hkept
      rw [List.filter_cons_of_pos hnext]
      exact ⟨next, rfl, hcloses, hlevel⟩

theorem forall_filter_cons {p : HeadingTag → Prop} :
    (∀ other ∈ (tag :: rest).filter HeadingTag.isHeading, p other) ↔
      (tag.isHeading = true → p tag) ∧ ∀ other ∈ rest.filter HeadingTag.isHeading, p other := by
  simp only [List.mem_filter, List.forall_mem_cons, and_imp]

/-- Pairs of tags are moved down together where both are bare. -/
theorem map_promote_iff {levels : Nat} (hlevels : levels ≠ 0) (h : IsPaired tags)
    (hbare : ∀ tag ∈ tags, tag.closes = true → tag.bare = true) :
    IsPaired ((tags.map (HeadingTag.promote levels)).filter HeadingTag.isHeading) ↔
      ∀ tag ∈ tags.filter HeadingTag.isHeading, tag.closes = false → tag.bare = false →
        tag.level = 6 := by
  induction tags with
  | nil => simp [IsPaired]
  | cons tag rest ih =>
    have hrest := ih h.2 fun other hother => hbare other (List.mem_cons_of_mem _ hother)
    rw [forall_filter_cons, List.map_cons, ← hrest]
    cases hcloses : tag.closes with
    | true =>
      have htag := hbare tag List.mem_cons_self hcloses
      have hkept := HeadingTag.isHeading_promote_of_bare hlevels htag
      rw [List.filter_cons_of_pos hkept, cons_of_closes (by simp [hcloses])]
      simp
    | false =>
      -- The closing tag is bare, so that it comes first in what is left of the rest.
      obtain ⟨next, more, rfl, hnext, hlevel⟩ := h.exists_of_opens hcloses
      have hbareNext := hbare next (by simp) hnext
      have hmoved : ((next :: more).map (HeadingTag.promote levels)).filter HeadingTag.isHeading =
          next.promote levels ::
            (more.map (HeadingTag.promote levels)).filter HeadingTag.isHeading :=
        List.filter_cons_of_pos (HeadingTag.isHeading_promote_of_bare hlevels hbareNext)
      have hnextLevel : (next.promote levels).level = min (tag.level + levels) 6 := by
        rw [HeadingTag.promote_of_bare hbareNext, ← hlevel]
      cases htag : tag.bare with
      | true =>
        have hkept := HeadingTag.isHeading_promote_of_bare hlevels htag
        rw [List.filter_cons_of_pos hkept, hmoved,
          cons_of_opens (by simp [hcloses]) (by simp [hnext]), hnextLevel,
          HeadingTag.promote_of_bare htag]
        simp
      | false =>
        rw [HeadingTag.promote_of_not_bare htag]
        cases hkept : tag.isHeading with
        | false =>
          rw [List.filter_cons_of_neg (by simp [hkept])]
          simp
        | true =>
          have hlast : min (tag.level + levels) 6 = tag.level ↔ tag.level = 6 := by
            simp only [HeadingTag.isHeading, Bool.and_eq_true, decide_eq_true_eq] at hkept
            omega
          rw [List.filter_cons_of_pos hkept, hmoved, cons_of_opens hcloses (by simp [hnext]),
            hnextLevel, hlast]
          simp

end IsPaired

/-- The tags of a fragment whose headings are moved down. -/
theorem outline_promoteHeadings {levels : Nat} (h : levels ≠ 0) (html : String) :
    outline (promoteHeadings levels html) = (outline html).map (HeadingTag.promote levels) := by
  rw [outline, toList_promoteHeadings h, outlineOf_promoted]
  rfl

/-- In a fragment whose headings are paired, and whatever else is named like a heading, they
are paired after they are moved down exactly when no opening one has attributes, but at the
last level. -/
theorem promoteHeadings_keeps_pairs_iff {html : String} (levels : Nat)
    (h : IsPaired (outline html)) :
    IsPaired (headings html) ∧
      (IsPaired (headings (promoteHeadings levels html)) ↔
        levels = 0 ∨ ∀ tag ∈ headings html, tag.closes = false → tag.bare = false →
          tag.level = 6) := by
  refine ⟨h.filter_isHeading, ?_⟩
  by_cases hlevels : levels = 0
  · subst hlevels
    rw [promoteHeadings, if_pos rfl]
    exact ⟨fun _ => Or.inl rfl, fun _ => h.filter_isHeading⟩
  · have hbare : ∀ tag ∈ outline html, tag.closes = true → tag.bare = true := by
      intro tag htag
      obtain ⟨rest, hrest⟩ := behind?_of_mem_outlineOf htag
      exact HeadingTag.bare_of_behind? hrest
    rw [headings, outline_promoteHeadings hlevels, IsPaired.map_promote_iff hlevels h hbare]
    exact (or_iff_right hlevels).symm

/-- Headings of three levels, in either case. -/
def sections : String := "<h2>A</h2><p>a &lt; b</p><H5>B</H5><h6 id=\"c\">C</h6>"

theorem promoteHeadings_keeps_pairs_of_sections :
    IsPaired (outline sections) ∧ IsPaired (headings (promoteHeadings 3 sections)) :=
  have hpaired : IsPaired (outline sections) := by decide
  ⟨hpaired, (promoteHeadings_keeps_pairs_iff 3 hpaired).2.2 (Or.inr (by decide))⟩

/-- The end of a heading with a class is moved without its front. What is no heading, for it
has no level, becomes one that is never closed. -/
theorem attributedHeading_is_torn :
    (IsPaired (headings "<h1 class=\"x\">Intro</h1>") ∧
        promoteHeadings 1 "<h1 class=\"x\">Intro</h1>" = "<h1 class=\"x\">Intro</h2>" ∧
        ¬IsPaired (headings (promoteHeadings 1 "<h1 class=\"x\">Intro</h1>"))) ∧
      IsPaired (headings "<h0>Intro") ∧ ¬IsPaired (headings (promoteHeadings 1 "<h0>Intro")) := by
  decide

end RegisterMap.Html
