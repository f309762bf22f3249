import RegisterMap.Proofs.Html.Promotion

/-!
Headings moved down more than once. A move makes no tag and takes none away: at every place
of a fragment there is afterwards the tag that was there, with its new level, and between the
tags nothing is changed. So a second move finds the tags of the first, and two moves are one
by as many levels.
-/

namespace RegisterMap.Html

variable {levels : Nat}

theorem not_mem_bareName {closes : Bool} {h digit : Char} (hh : h = 'h' ∨ h = 'H')
    (hdigit : digit.isDigit = true) : '<' ∉ bareName closes h digit := by
  have hletter : '<' ≠ h := by
    rintro rfl
    revert hh
    decide
  have hlevel : '<' ≠ digit := by
    rintro rfl
    cases hdigit
  cases closes <;> simp [bareName, hletter, hlevel]

theorem length_bareTag_promotedDigit (levels : Nat) (closes : Bool) (h digit : Char) :
    (bareTag closes 'h' (promotedDigit levels digit)).length = (bareTag closes h digit).length := by
  cases closes <;> rfl

/-- A character that no tag begins at stays. -/
theorem promoted_cons {c : Char} {rest : List Char}
    (hnone : c = '<' → Heading.tag? (c :: rest) = none) :
    promoted levels (c :: rest) = c :: promoted levels rest := by
  by_cases hc : c = '<'
  · subst hc
    exact promoted_cons_of_none (hnone rfl)
  · exact promoted_cons_of_ne hc rest

/-- A tag begins with a `<`. -/
theorem tag?_of_ne {c : Char} (hc : c ≠ '<') (rest : List Char) :
    Heading.tag? (c :: rest) = none := by
  simp [Heading.tag?, hc]

/-- Where there is no tag, none comes of a move behind it. -/
theorem tag?_promoted_of_none {c : Char} {rest : List Char}
    (hnone : c = '<' → Heading.tag? (c :: rest) = none) (hc : c = '<') :
    Heading.tag? (c :: promoted levels rest) = none := by
  subst hc
  by_contra hsome
  obtain ⟨⟨heading, length⟩, hfound⟩ := Option.ne_none_iff_exists'.1 hsome
  obtain ⟨letter, digit, more, hletter, hdigit, heq, _⟩ := eq_bareTag_of_tag? hfound
  -- The name of a tag has no `<` in it, so it was there before the move.
  have hrest : promoted levels rest = bareName heading.closes letter digit ++ more :=
    (List.cons.inj heq).2
  obtain ⟨behind, rfl⟩ := exists_eq_append_of_promoted (not_mem_bareName hletter hdigit) hrest
  cases (hnone rfl).symm.trans (tag?_bareTag hletter hdigit behind)

/-- A tag in front is the one that was there, with its level changed. -/
theorem tag?_promoted (levels : Nat) (cs : List Char) :
    Heading.tag? (promoted levels cs) =
      (Heading.tag? cs).map fun found => (found.1.promote levels, found.2) := by
  cases hfound : Heading.tag? cs with
  | none =>
    cases cs with
    | nil => rfl
    | cons c rest =>
      have hnone (_ : c = '<') : Heading.tag? (c :: rest) = none := hfound
      rw [promoted_cons hnone, Option.map_none]
      by_cases hc : c = '<'
      · exact tag?_promoted_of_none hnone hc
      · exact tag?_of_ne hc _
  | some found =>
    obtain ⟨⟨closes, level⟩, length⟩ := found
    obtain ⟨letter, digit, more, hletter, hdigit, rfl, heq, rfl⟩ := eq_bareTag_of_tag? hfound
    obtain ⟨_, rfl⟩ := Heading.mk.inj heq
    rw [promoted_bareTag hletter hdigit,
      tag?_bareTag (Or.inl rfl) (isDigit_promotedDigit levels digit), toNat_promotedDigit,
      length_bareTag_promotedDigit levels closes letter digit]
    rfl

/-! Two moves. -/

theorem promotedDigit_promotedDigit (levels more : Nat) (digit : Char) :
    promotedDigit more (promotedDigit levels digit) = promotedDigit (levels + more) digit := by
  rw [promotedDigit, toNat_promotedDigit, promotedDigit]
  congr 1
  omega

theorem promoted_promoted (levels more : Nat) (cs : List Char) :
    promoted more (promoted levels cs) = promoted (levels + more) cs := by
  induction cs using promoted_induction with
  | nil => rfl
  | char c rest hnone ih =>
    rw [promoted_cons hnone, promoted_cons hnone, promoted_cons (tag?_promoted_of_none hnone), ih]
  | tag closes h digit rest hh hdigit ih =>
    rw [promoted_bareTag hh hdigit, promoted_bareTag hh hdigit,
      promoted_bareTag (Or.inl rfl) (isDigit_promotedDigit levels digit),
      promotedDigit_promotedDigit, ih]

/-! What a move does at a place of a fragment. -/

/-- No tag is at a place inside another one. -/
theorem tag?_drop_bareTag {closes : Bool} {h digit : Char} (hh : h = 'h' ∨ h = 'H')
    (hdigit : digit.isDigit = true) {i : Nat} (hpos : 0 < i)
    (hinside : i < (bareTag closes h digit).length) (rest : List Char) :
    Heading.tag? ((bareTag closes h digit ++ rest).drop i) = none := by
  obtain ⟨j, rfl⟩ := Nat.exists_eq_add_one.2 hpos
  have hname : j < (bareName closes h digit).length := Nat.lt_of_succ_lt_succ hinside
  have hdrop : (bareTag closes h digit ++ rest).drop (j + 1) =
      (bareName closes h digit)[j] :: ((bareName closes h digit).drop (j + 1) ++ rest) := by
    rw [bareTag, List.cons_append, List.drop_succ_cons, List.drop_append_of_le_length hname.le,
      List.drop_eq_getElem_cons hname, List.cons_append]
  rw [hdrop]
  refine tag?_of_ne (fun hopen => ?_) _
  have hmem : '<' ∈ bareName closes h digit := hopen ▸ List.getElem_mem hname
  exact not_mem_bareName hh hdigit hmem

theorem tag?_drop_promoted (levels : Nat) (cs : List Char) (i : Nat) :
    Heading.tag? ((promoted levels cs).drop i) =
      (Heading.tag? (cs.drop i)).map fun found => (found.1.promote levels, found.2) := by
  induction cs using promoted_induction generalizing i with
  | nil => simp [promoted, cut, Heading.tag?]
  | char c rest hnone ih =>
    cases i with
    | zero => exact tag?_promoted levels (c :: rest)
    | succ i =>
      rw [promoted_cons hnone, List.drop_succ_cons, List.drop_succ_cons, ih]
  | tag closes h digit rest hh hdigit ih =>
    have hsame := length_bareTag_promotedDigit levels closes h digit
    have hdigit' := isDigit_promotedDigit levels digit
    rcases Nat.eq_zero_or_pos i with rfl | hpos
    · exact tag?_promoted levels _
    rw [promoted_bareTag hh hdigit]
    by_cases hinside : i < (bareTag closes h digit).length
    · rw [tag?_drop_bareTag hh hdigit hpos hinside,
        tag?_drop_bareTag (Or.inl rfl) hdigit' hpos (hsame ▸ hinside), Option.map_none]
    · obtain ⟨j, rfl⟩ := Nat.le.dest (Nat.le_of_not_lt hinside)
      rw [List.drop_length_add_append, ← hsame, List.drop_length_add_append, ih]

/-- A place of a fragment that no tag goes over. -/
def IsOutside (cs : List Char) (i : Nat) : Prop :=
  ∀ j heading length, Heading.tag? (cs.drop j) = some (heading, length) → i < j ∨ j + length ≤ i

theorem IsOutside.of_append (front : List Char) {cs : List Char} {i : Nat}
    (h : IsOutside (front ++ cs) (front.length + i)) : IsOutside cs i := by
  intro j heading length htag
  rw [← List.drop_length_add_append] at htag
  have hbeside := h _ heading length htag
  omega

theorem getElem?_promoted (levels : Nat) (cs : List Char) {i : Nat} (h : IsOutside cs i) :
    (promoted levels cs)[i]? = cs[i]? := by
  induction cs using promoted_induction generalizing i with
  | nil => rfl
  | char c rest hnone ih =>
    rw [promoted_cons hnone]
    cases i with
    | zero => rfl
    | succ i =>
      rw [List.getElem?_cons_succ, List.getElem?_cons_succ]
      refine ih (IsOutside.of_append [c] ?_)
      rwa [List.length_singleton, Nat.add_comm]
  | tag closes h' digit rest hh hdigit ih =>
    have hsame := length_bareTag_promotedDigit levels closes h' digit
    have hbehind : (bareTag closes h' digit).length ≤ i := by
      rcases h 0 _ _ (tag?_bareTag hh hdigit rest) with hfront | hbehind
      · exact absurd hfront (Nat.not_lt_zero i)
      · simpa using hbehind
    obtain ⟨j, rfl⟩ := Nat.le.dest hbehind
    rw [promoted_bareTag hh hdigit, List.getElem?_append_right (by omega),
      List.getElem?_append_right (by omega), hsame, Nat.add_sub_cancel_left]
    exact ih (IsOutside.of_append _ h)

/-! What the search finds. -/

def Piece.map (f : α → β) : Piece α → Piece β
  | char c => .char c
  | tag a => .tag (f a)

theorem Piece.map_id (piece : Piece α) : piece.map id = piece := by
  cases piece <;> rfl

def Piece.tagged? : Piece α → Option α
  | char _ => none
  | tag a => some a

/-- The headings that are found in a fragment, in their order. -/
def foundHeadings (cs : List Char) : List Heading :=
  (cut Heading.tag? 0 cs).filterMap Piece.tagged?

theorem cut_cons {c : Char} {rest : List Char}
    (hnone : c = '<' → Heading.tag? (c :: rest) = none) :
    cut Heading.tag? 0 (c :: rest) = .char c :: cut Heading.tag? 0 rest := by
  by_cases hc : c = '<'
  · subst hc
    exact cut_cons_of_none (hnone rfl)
  · exact cut_cons_of_ne hc rest

theorem cut_bareTag {closes : Bool} {h digit : Char} (hh : h = 'h' ∨ h = 'H')
    (hdigit : digit.isDigit = true) (rest : List Char) :
    cut Heading.tag? 0 (bareTag closes h digit ++ rest) =
      .tag ⟨closes, digit.toNat - '0'.toNat⟩ :: cut Heading.tag? 0 rest :=
  cut_append_of_some (tag?_bareTag hh hdigit rest)

/-- A second search cuts where the first did. -/
theorem cut_promoted (levels : Nat) (cs : List Char) :
    cut Heading.tag? 0 (promoted levels cs) =
      (cut Heading.tag? 0 cs).map (Piece.map (Heading.promote · levels)) := by
  induction cs using promoted_induction with
  | nil => rfl
  | char c rest hnone ih =>
    rw [promoted_cons hnone, cut_cons (tag?_promoted_of_none hnone), cut_cons hnone, ih]
    rfl
  | tag closes h digit rest hh hdigit ih =>
    rw [promoted_bareTag hh hdigit, cut_bareTag hh hdigit,
      cut_bareTag (Or.inl rfl) (isDigit_promotedDigit levels digit), toNat_promotedDigit, ih]
    rfl

/-- A heading after a move. By no level nothing is changed, also where the level of the
heading is above the sixth. -/
def Heading.moved (levels : Nat) (h : Heading) : Heading :=
  if levels = 0 then h else h.promote levels

theorem Heading.closes_moved (levels : Nat) (h : Heading) :
    (h.moved levels).closes = h.closes := by
  unfold Heading.moved
  split <;> rfl

/-- A fragment before and after its headings are moved down. -/
structure MovesHeadings (levels : Nat) (cs out : List Char) : Prop where
  /-- At every place there is the tag that was there. -/
  tag?_drop : ∀ i, Heading.tag? (out.drop i) =
    (Heading.tag? (cs.drop i)).map fun found => (found.1.moved levels, found.2)
  /-- The search cuts at the same tags, and has the same characters between them. -/
  cut_eq : cut Heading.tag? 0 out =
    (cut Heading.tag? 0 cs).map (Piece.map (Heading.moved levels))
  /-- As many tags are found, and they open and close as before. -/
  closes_eq : (foundHeadings out).map Heading.closes = (foundHeadings cs).map Heading.closes
  length_eq : out.length = cs.length
  getElem?_eq : ∀ i, IsOutside cs i → out[i]? = cs[i]?

theorem closes_foundHeadings_of_cut {levels : Nat} {cs out : List Char}
    (h : cut Heading.tag? 0 out = (cut Heading.tag? 0 cs).map (Piece.map (Heading.moved levels))) :
    (foundHeadings out).map Heading.closes = (foundHeadings cs).map Heading.closes := by
  have hpiece (piece : Piece Heading) :
      ((piece.map (Heading.moved levels)).tagged?).map Heading.closes =
        piece.tagged?.map Heading.closes := by
    cases piece with
    | char c => rfl
    | tag heading => exact congrArg some (heading.closes_moved levels)
  rw [foundHeadings, foundHeadings, h, List.filterMap_map, List.map_filterMap, List.map_filterMap]
  exact congrArg (List.filterMap · _) (funext hpiece)

theorem movesHeadings_zero (cs : List Char) : MovesHeadings 0 cs cs := by
  have hcut : cut Heading.tag? 0 cs =
      (cut Heading.tag? 0 cs).map (Piece.map (Heading.moved 0)) := by
    have hpiece : Piece.map (Heading.moved 0) = id := funext Piece.map_id
    rw [hpiece, List.map_id]
  refine ⟨fun i => ?_, hcut, rfl, rfl, fun i _ => rfl⟩
  exact (congrFun Option.map_id (Heading.tag? (cs.drop i))).symm

theorem movesHeadings_promoted (h : levels ≠ 0) (cs : List Char) :
    MovesHeadings levels cs (promoted levels cs) := by
  have hmoved : Heading.moved levels = (Heading.promote · levels) :=
    funext fun heading => if_neg h
  have hcut : cut Heading.tag? 0 (promoted levels cs) =
      (cut Heading.tag? 0 cs).map (Piece.map (Heading.moved levels)) := by
    rw [hmoved]
    exact cut_promoted levels cs
  exact {
    tag?_drop := by
      rw [hmoved]
      exact tag?_drop_promoted levels cs
    cut_eq := hcut
    closes_eq := closes_foundHeadings_of_cut hcut
    length_eq := length_promoted levels cs
    getElem?_eq := fun i => getElem?_promoted levels cs }

/-- Two moves are one by as many levels, and a move changes nothing but the levels of the
tags that are found. -/
theorem promoteHeadings_composes (levels : Nat) (html : String) :
    (∀ more, promoteHeadings more (promoteHeadings levels html) =
        promoteHeadings (levels + more) html) ∧
      MovesHeadings levels html.toList (promoteHeadings levels html).toList := by
  -- A move by no level is no search at all, and keeps even the levels above the sixth.
  by_cases hlevels : levels = 0
  · subst hlevels
    have hsame : promoteHeadings 0 html = html := if_pos rfl
    rw [hsame]
    exact ⟨fun more => by rw [Nat.zero_add], movesHeadings_zero _⟩
  refine ⟨fun more => ?_, ?_⟩
  · by_cases hmore : more = 0
    · subst hmore
      exact if_pos rfl
    · have hboth : levels + more ≠ 0 := by omega
      rw [← String.toList_inj, toList_promoteHeadings hmore, toList_promoteHeadings hlevels,
        toList_promoteHeadings hboth, promoted_promoted]
  · rw [toList_promoteHeadings hlevels]
    exact movesHeadings_promoted hlevels _

example : promoteHeadings 2 "<<h1><H9></h0" = "<<h3><h6></h0" := by decide +kernel

end RegisterMap.Html
