import RegisterMap.Proofs.Html.HeadingTags

/-!
Headings moved down. The search rewrites the tags that are bare, wherever they stand, and
leaves all others; what it rewrites keeps its length and the classes of its characters. So
a reader finds the same tags, those that are bare with other levels. An opening tag with
attributes stays while the tag that closes it moves.
-/

namespace RegisterMap.Html

variable {levels : Nat}

/-- The characters of a fragment whose headings are moved down. -/
def promoted (levels : Nat) (cs : List Char) : List Char :=
  (cut Heading.tag? 0 cs).flatMap fun
    | .char c => [c]
    | .tag h => (h.promote levels).render

theorem toList_promoteHeadings (h : levels ≠ 0) (html : String) :
    (promoteHeadings levels html).toList = promoted levels html.toList := by
  rw [promoteHeadings, if_neg h, String.toList_ofList]
  rfl

/-! What is rewritten. -/

/-- What follows the `<` of a heading's tag without attributes. -/
def bareName (closes : Bool) (h digit : Char) : List Char :=
  (if closes then ['/'] else []) ++ [h, digit, '>']

/-- The tag of a heading without attributes. -/
def bareTag (closes : Bool) (h digit : Char) : List Char := '<' :: bareName closes h digit

theorem ofChars?_eq_some_iff {closes : Bool} {cs : List Char} {heading : Heading} :
    Heading.ofChars? closes cs = some heading ↔
      ∃ h digit rest, (h = 'h' ∨ h = 'H') ∧ digit.isDigit = true ∧
        cs = h :: digit :: '>' :: rest ∧ heading = ⟨closes, digit.toNat - '0'.toNat⟩ := by
  constructor
  · intro hfound
    unfold Heading.ofChars? at hfound
    split at hfound
    · next h digit rest =>
      split at hfound
      · next hname => exact ⟨h, digit, rest, hname.1, hname.2, rfl, (Option.some.inj hfound).symm⟩
      · cases hfound
    · cases hfound
  · rintro ⟨h, digit, rest, hh, hdigit, rfl, rfl⟩
    simp only [Heading.ofChars?]
    rw [if_pos ⟨hh, hdigit⟩]

theorem eq_bareTag_of_tag? {cs : List Char} {heading : Heading} {length : Nat}
    (hfound : Heading.tag? cs = some (heading, length)) :
    ∃ h digit rest, (h = 'h' ∨ h = 'H') ∧ digit.isDigit = true ∧
      cs = bareTag heading.closes h digit ++ rest ∧
      heading = ⟨heading.closes, digit.toNat - '0'.toNat⟩ ∧
      length = (bareTag heading.closes h digit).length := by
  unfold Heading.tag? at hfound
  split at hfound
  · obtain ⟨_, hchars, heq⟩ := Option.map_eq_some_iff.1 hfound
    obtain ⟨h, digit, rest, hh, hdigit, rfl, rfl⟩ := ofChars?_eq_some_iff.1 hchars
    cases heq
    exact ⟨h, digit, rest, hh, hdigit, rfl, rfl, rfl⟩
  · obtain ⟨_, hchars, heq⟩ := Option.map_eq_some_iff.1 hfound
    obtain ⟨h, digit, rest, hh, hdigit, rfl, rfl⟩ := ofChars?_eq_some_iff.1 hchars
    cases heq
    exact ⟨h, digit, rest, hh, hdigit, rfl, rfl, rfl⟩
  · cases hfound

section

variable {closes : Bool} {h digit : Char}

theorem tag?_bareTag (hh : h = 'h' ∨ h = 'H') (hdigit : digit.isDigit = true)
    (rest : List Char) :
    Heading.tag? (bareTag closes h digit ++ rest) =
      some (⟨closes, digit.toNat - '0'.toNat⟩, (bareTag closes h digit).length) := by
  have hchars : Heading.ofChars? closes (h :: digit :: '>' :: rest) = _ :=
    ofChars?_eq_some_iff.2 ⟨h, digit, rest, hh, hdigit, rfl, rfl⟩
  cases closes with
  | true => exact congrArg (Option.map (·, 5)) hchars
  | false =>
    rcases hh with rfl | rfl
    · exact congrArg (Option.map (·, 4)) hchars
    · exact congrArg (Option.map (·, 4)) hchars

/-- The digit of a level after it is moved down. -/
def promotedDigit (levels : Nat) (digit : Char) : Char :=
  (min (digit.toNat - '0'.toNat + levels) 6).digitChar

theorem isDigit_promotedDigit (levels : Nat) (digit : Char) :
    (promotedDigit levels digit).isDigit = true := by
  have hdigits : ∀ n ≤ 6, (Nat.digitChar n).isDigit = true := by decide
  exact hdigits _ (Nat.min_le_right _ _)

theorem toNat_promotedDigit (levels : Nat) (digit : Char) :
    (promotedDigit levels digit).toNat - '0'.toNat =
      min (digit.toNat - '0'.toNat + levels) 6 := by
  have hdigits : ∀ n ≤ 6, (Nat.digitChar n).toNat - '0'.toNat = n := by decide
  exact hdigits _ (Nat.min_le_right _ _)

theorem render_promote (levels : Nat) (closes : Bool) (digit : Char) :
    (Heading.promote ⟨closes, digit.toNat - '0'.toNat⟩ levels).render =
      bareTag closes 'h' (promotedDigit levels digit) := by
  have hdigits : ∀ n ≤ 6, (toString n).toList = [Nat.digitChar n] := by decide
  simp only [Heading.promote, Heading.render, promotedDigit, bareTag]
  rw [hdigits _ (Nat.min_le_right _ _)]
  cases closes with
  | true => rfl
  | false => rfl

/-! The search, one step at a time. -/

theorem promoted_cons_of_ne {c : Char} (hc : c ≠ '<') (rest : List Char) :
    promoted levels (c :: rest) = c :: promoted levels rest := by
  rw [promoted, cut_cons_of_ne hc]
  rfl

theorem promoted_cons_of_none {rest : List Char} (hnone : Heading.tag? ('<' :: rest) = none) :
    promoted levels ('<' :: rest) = '<' :: promoted levels rest := by
  rw [promoted, cut_cons_of_none hnone]
  rfl

theorem promoted_bareTag (hh : h = 'h' ∨ h = 'H') (hdigit : digit.isDigit = true)
    (rest : List Char) :
    promoted levels (bareTag closes h digit ++ rest) =
      bareTag closes 'h' (promotedDigit levels digit) ++ promoted levels rest := by
  have htag : Heading.tag? ('<' :: (bareName closes h digit ++ rest)) =
      some (_, (bareName closes h digit).length + 1) := tag?_bareTag hh hdigit rest
  rw [← render_promote]
  exact congrArg (List.flatMap _) (cut_append_of_some htag)

end

/-- A fragment is gone through by the search character by character, up to a tag that is
rewritten. -/
theorem promoted_induction {motive : List Char → Prop} (nil : motive [])
    (char : ∀ c rest, (c = '<' → Heading.tag? (c :: rest) = none) → motive rest →
      motive (c :: rest))
    (tag : ∀ closes h digit rest, (h = 'h' ∨ h = 'H') → digit.isDigit = true → motive rest →
      motive (bareTag closes h digit ++ rest))
    (cs : List Char) : motive cs := by
  induction hlength : cs.length using Nat.strong_induction_on generalizing cs with
  | _ n ih =>
    subst hlength
    cases cs with
    | nil => exact nil
    | cons c rest =>
      cases hfound : Heading.tag? (c :: rest) with
      | none => exact char c rest (fun _ => hfound) (ih _ (Nat.lt_succ_self _) rest rfl)
      | some found =>
        obtain ⟨h, digit, more, hh, hdigit, heq, _⟩ := eq_bareTag_of_tag? hfound
        rw [heq] at ih ⊢
        refine tag _ h digit more hh hdigit (ih _ ?_ more rfl)
        simp only [bareTag, List.cons_append, List.length_cons, List.length_append]
        omega

/-! What the search leaves as it is. -/

/-- Characters stay in their classes. -/
theorem sameClass_promoted (levels : Nat) (cs : List Char) :
    List.Forall₂ SameClass cs (promoted levels cs) := by
  induction cs using promoted_induction with
  | nil => exact .nil
  | char c rest hnone ih =>
    by_cases hc : c = '<'
    · subst hc
      rw [promoted_cons_of_none (hnone rfl)]
      exact .cons (.refl _) ih
    · rw [promoted_cons_of_ne hc]
      exact .cons (.refl _) ih
  | tag closes h digit rest hh hdigit ih =>
    rw [promoted_bareTag hh hdigit]
    have hletter : SameClass h 'h' := by
      rcases hh with rfl | rfl
      · exact .refl _
      · exact Or.inr (by decide)
    have hdigit' := isDigit_promotedDigit levels digit
    have hlevel : SameClass digit (promotedDigit levels digit) := .of_isDigit hdigit hdigit'
    have hname : List.Forall₂ SameClass (h :: digit :: '>' :: rest)
        ('h' :: promotedDigit levels digit :: '>' :: promoted levels rest) :=
      .cons hletter (.cons hlevel (.cons (.refl _) ih))
    cases closes with
    | true => exact .cons (.refl _) (.cons (.refl _) hname)
    | false => exact .cons (.refl _) hname

theorem length_promoted (levels : Nat) (cs : List Char) :
    (promoted levels cs).length = cs.length :=
  (sameClass_promoted levels cs).length_eq.symm

theorem exists_promoted_open (levels : Nat) (rest : List Char) :
    ∃ out, promoted levels ('<' :: rest) = '<' :: out ∧ List.Forall₂ SameClass rest out := by
  have hclass := sameClass_promoted levels ('<' :: rest)
  cases hout : promoted levels ('<' :: rest) with
  | nil =>
    rw [hout] at hclass
    cases hclass
  | cons c out =>
    rw [hout] at hclass
    obtain ⟨hc, hrest⟩ := List.forall₂_cons.1 hclass
    have hopen : c = '<' := (hc.eq_iff (by decide)).1 rfl
    exact ⟨out, by rw [hopen], hrest⟩

/-- The first end of a tag decides whether the text in front of it is a heading's name. -/
theorem ofChars?_append {closes : Bool} {cs : List Char} (hend : '>' ∈ cs) (back : List Char) :
    Heading.ofChars? closes (cs ++ back) = Heading.ofChars? closes cs := by
  refine Option.ext fun heading => ?_
  rw [ofChars?_eq_some_iff, ofChars?_eq_some_iff]
  constructor
  · rintro ⟨h, digit, rest, hh, hdigit, heq, hheading⟩
    have hletter : '>' ≠ h := by
      rintro rfl
      revert hh
      decide
    have hlevel : '>' ≠ digit := by
      rintro rfl
      cases hdigit
    rcases cs with _ | ⟨a, _ | ⟨b, _ | ⟨c, more⟩⟩⟩
    · cases hend
    · simp_all
    · simp_all
    · obtain ⟨rfl, rfl, rfl, rfl⟩ : a = h ∧ b = digit ∧ c = '>' ∧ more ++ back = rest := by
        simpa using heq
      exact ⟨a, b, more, hh, hdigit, rfl, hheading⟩
  · rintro ⟨h, digit, rest, hh, hdigit, rfl, hheading⟩
    exact ⟨h, digit, rest ++ back, hh, hdigit, rfl, hheading⟩

theorem tag?_cons_of_ne {c : Char} (hc : c ≠ '/') (rest : List Char) :
    Heading.tag? ('<' :: c :: rest) = (Heading.ofChars? false (c :: rest)).map (·, 4) := by
  simp [Heading.tag?, hc]

theorem headingTag?_append {rest : List Char} (hend : '>' ∈ rest) (back : List Char) :
    Heading.tag? ('<' :: rest ++ back) = Heading.tag? ('<' :: rest) := by
  cases rest with
  | nil => cases hend
  | cons c more =>
    by_cases hslash : c = '/'
    · subst hslash
      have hmore : '>' ∈ more := by simpa using hend
      exact congrArg (Option.map (·, 5)) (ofChars?_append hmore back)
    · rw [List.cons_append, List.cons_append, tag?_cons_of_ne hslash, tag?_cons_of_ne hslash,
        ← List.cons_append, ofChars?_append hend back]

/-- A text that ends with the end of a tag cuts off what follows it. -/
theorem cutsOff_headingTag? (inside back : List Char) :
    CutsOff Heading.tag? (inside ++ ['>']) back where
  decided rest hrest := by
    rcases List.suffix_concat_iff.1 hrest with hnil | ⟨front, heq, _⟩
    · cases hnil
    · cases front with
      | nil => cases heq
      | cons c more =>
        obtain ⟨_, rfl⟩ := List.cons.inj heq
        exact headingTag?_append (by simp) back
  ends rest heading length _ hfound := by
    obtain ⟨h, digit, more, _, _, heq, _, rfl⟩ := eq_bareTag_of_tag? hfound
    have hlength := congrArg List.length heq
    rw [List.length_append, List.length_cons] at hlength
    omega

theorem promoted_append (levels : Nat) (inside back : List Char) :
    promoted levels (inside ++ ['>'] ++ back) =
      promoted levels (inside ++ ['>']) ++ promoted levels back := by
  rw [promoted, (cutsOff_headingTag? inside back).cut_append, List.flatMap_append]
  rfl

/-! What a reader finds afterwards. -/

/-- The level of a tag is changed where it is bare. -/
def HeadingTag.promote (levels : Nat) (tag : HeadingTag) : HeadingTag :=
  if tag.bare then { tag with level := min (tag.level + levels) 6 } else tag

/-- Up to the next `<`, nothing is changed. -/
theorem promoted_append_of_not_mem {front : List Char} (h : '<' ∉ front) (back : List Char) :
    promoted levels (front ++ back) = front ++ promoted levels back := by
  induction front with
  | nil => rfl
  | cons c front ih =>
    obtain ⟨hc, hfront⟩ := not_or.1 (mt List.mem_cons.2 h)
    rw [List.cons_append, promoted_cons_of_ne (Ne.symm hc), ih hfront, List.cons_append]

theorem exists_eq_append_of_promoted {cs front back : List Char} (h : '<' ∉ front)
    (hcs : promoted levels cs = front ++ back) :
    ∃ rest, cs = front ++ rest := by
  induction front generalizing cs with
  | nil => exact ⟨cs, rfl⟩
  | cons c front ih =>
    obtain ⟨hc, hfront⟩ := not_or.1 (mt List.mem_cons.2 h)
    cases cs with
    | nil => cases hcs
    | cons d cs =>
      by_cases hd : d = '<'
      · subst hd
        obtain ⟨out, hout, _⟩ := exists_promoted_open levels cs
        rw [hout] at hcs
        exact absurd (List.cons.inj hcs).1 hc
      · rw [promoted_cons_of_ne hd] at hcs
        obtain ⟨rfl, hrest⟩ := List.cons.inj hcs
        obtain ⟨rest, rfl⟩ := ih hfront hrest
        exact ⟨rest, rfl⟩

namespace HeadingTag

/-- The name of a tag has no `<` in it, and stays where it is no tag to be changed. -/
theorem ofName?_promoted (levels : Nat) (closes : Bool) (cs : List Char) :
    ofName? closes (promoted levels cs) = ofName? closes cs := by
  refine Option.ext fun tag => ?_
  rw [ofName?_eq_some_iff, ofName?_eq_some_iff]
  constructor
  · rintro ⟨h, digit, next, rest, hname, heq, htag⟩
    have hcs : promoted levels cs = [h, digit, next] ++ rest := heq
    obtain ⟨more, rfl⟩ := exists_eq_append_of_promoted hname.not_mem hcs
    exact ⟨h, digit, next, more, hname, rfl, htag⟩
  · rintro ⟨h, digit, next, rest, hname, rfl, htag⟩
    exact ⟨h, digit, next, promoted levels rest, hname,
      promoted_append_of_not_mem hname.not_mem rest, htag⟩

theorem bare_eq_false_of_ofChars? {closes : Bool} {cs : List Char} {tag : HeadingTag}
    (hnone : Heading.ofChars? closes cs = none) (h : ofName? closes cs = some tag) :
    tag.bare = false := by
  obtain ⟨letter, digit, next, rest, hname, rfl, rfl⟩ := ofName?_eq_some_iff.1 h
  by_contra hbare
  obtain rfl : next = '>' := by simpa using hbare
  have hfound : Heading.ofChars? closes (letter :: digit :: '>' :: rest) = _ :=
    ofChars?_eq_some_iff.2 ⟨letter, digit, rest, hname.letter, hname.digit, rfl, rfl⟩
  cases hnone.symm.trans hfound

theorem map_promote_of_ofChars? {closes : Bool} {cs : List Char}
    (hnone : Heading.ofChars? closes cs = none) :
    (ofName? closes cs).map (promote levels) = ofName? closes cs := by
  cases hfound : ofName? closes cs with
  | none => rfl
  | some tag =>
    have hbare := bare_eq_false_of_ofChars? hnone hfound
    simp [promote, hbare]

theorem behind?_cons_of_ne {c : Char} (hc : c ≠ '/') (rest : List Char) :
    behind? (c :: rest) = ofName? false (c :: rest) := by
  simp [behind?, hc]

theorem behind?_bareName {closes : Bool} {h digit : Char} (hh : h = 'h' ∨ h = 'H')
    (hdigit : digit.isDigit = true) (rest : List Char) :
    behind? (bareName closes h digit ++ rest) =
      some ⟨closes, digit.toNat - '0'.toNat, true⟩ := by
  have hname : ofName? closes (h :: digit :: '>' :: rest) = _ :=
    ofName?_eq_some_iff.2 ⟨h, digit, '>', rest, ⟨hh, hdigit, Or.inl rfl⟩, rfl, rfl⟩
  cases closes with
  | true => exact hname
  | false =>
    have hslash : h ≠ '/' := by
      rintro rfl
      revert hh
      decide
    exact (behind?_cons_of_ne hslash _).trans hname

/-- The tag behind a `<` is the one that was there, with its level changed if it is bare. -/
theorem behind?_promoted {rest out : List Char}
    (hout : promoted levels ('<' :: rest) = '<' :: out) :
    behind? out = (behind? rest).map (promote levels) := by
  cases hfound : Heading.tag? ('<' :: rest) with
  | some found =>
    obtain ⟨h, digit, more, hh, hdigit, heq, _⟩ := eq_bareTag_of_tag? hfound
    rw [heq, promoted_bareTag hh hdigit] at hout
    have hrest : rest = bareName found.1.closes h digit ++ more := (List.cons.inj heq).2
    have hmoved : bareName found.1.closes 'h' (promotedDigit levels digit) ++
        promoted levels more = out := (List.cons.inj hout).2
    rw [hrest, ← hmoved, behind?_bareName hh hdigit,
      behind?_bareName (Or.inl rfl) (isDigit_promotedDigit _ _), toNat_promotedDigit]
    rfl
  | none =>
    rw [promoted_cons_of_none hfound] at hout
    obtain rfl := (List.cons.inj hout).2
    cases rest with
    | nil => rfl
    | cons c more =>
      by_cases hslash : c = '/'
      · subst hslash
        have hnone : Heading.ofChars? true more = none := Option.map_eq_none_iff.1 hfound
        have hpromoted : promoted levels ('/' :: more) = '/' :: promoted levels more :=
          promoted_cons_of_ne (by decide) more
        calc behind? (promoted levels ('/' :: more))
            = ofName? true (promoted levels more) := congrArg behind? hpromoted
          _ = ofName? true more := ofName?_promoted levels true more
          _ = (ofName? true more).map (promote levels) := (map_promote_of_ofChars? hnone).symm
      · have hnone : Heading.ofChars? false (c :: more) = none := by
          rw [tag?_cons_of_ne hslash] at hfound
          exact Option.map_eq_none_iff.1 hfound
        have hclass := sameClass_promoted levels (c :: more)
        have hname := ofName?_promoted levels false (c :: more)
        cases hpromoted : promoted levels (c :: more) with
        | nil =>
          rw [hpromoted] at hclass
          cases hclass
        | cons d moved =>
          rw [hpromoted] at hclass hname
          have hslash' : d ≠ '/' := fun hd =>
            hslash (((List.forall₂_cons.1 hclass).1.eq_iff (by decide)).2 hd)
          rw [behind?_cons_of_ne hslash', hname, behind?_cons_of_ne hslash,
            map_promote_of_ofChars? hnone]

end HeadingTag

/-- What is behind something that a reader reads as one is moved down on its own. -/
theorem drop_promoted {rest out : List Char} {found : Option HeadingTag} {length : Nat}
    (hfound : markup? ('<' :: rest) = some (found, length + 1))
    (hout : promoted levels ('<' :: rest) = '<' :: out) :
    out.drop length = promoted levels (rest.drop length) := by
  have hlength : out.length = rest.length := by
    have hsame := length_promoted levels ('<' :: rest)
    rw [hout, List.length_cons, List.length_cons] at hsame
    omega
  rcases length_of_markup? hfound with ⟨inside, back, rfl, hinside⟩ | hall
  · have hfront : length = (inside ++ ['>']).length := by
      rw [List.length_append, List.length_singleton]
      omega
    have hsplit := promoted_append levels ('<' :: inside) back
    have hmoved := length_promoted levels ('<' :: inside ++ ['>'])
    rw [List.append_cons] at hout ⊢
    calc out.drop length
        = ('<' :: out).drop (length + 1) := rfl
      _ = (promoted levels ('<' :: inside ++ ['>']) ++ promoted levels back).drop (length + 1) := by
          rw [← hout, ← hsplit]
          rfl
      _ = promoted levels back := by
          rw [hfront]
          exact List.drop_left' hmoved
      _ = promoted levels ((inside ++ ['>'] ++ back).drop length) := by rw [hfront, List.drop_left]
  · have hend : length = rest.length := by omega
    rw [hend, List.drop_length, ← hlength, List.drop_length]
    rfl

/-- What a reader reads at a `<` has the same length afterwards. -/
theorem markup?_promoted {rest out : List Char}
    (hout : promoted levels ('<' :: rest) = '<' :: out) :
    markup? ('<' :: out) =
      (markup? ('<' :: rest)).map fun found =>
        (found.1.map (HeadingTag.promote levels), found.2) := by
  have hclass := sameClass_promoted levels ('<' :: rest)
  rw [hout] at hclass
  have hrest := (List.forall₂_cons.1 hclass).2
  have hbehind := HeadingTag.behind?_promoted hout
  cases hrest with
  | nil => rfl
  | @cons c d more moved hchar hmore =>
    have hread := Reader.length?_eq_of_sameClass (.cons hchar hmore) .opened
    simp only [markup?, ← hchar.begins_eq, ← hread, hbehind, hmore.length_eq]
    split
    case isFalse => rfl
    case isTrue =>
      cases Reader.opened.length? (c :: more) with
      | none => rfl
      | some length => rfl

/-- What is a heading's tag to the search is more than text to a reader. -/
theorem tag?_eq_none_of_markup? {rest : List Char} (h : markup? ('<' :: rest) = none) :
    Heading.tag? ('<' :: rest) = none := by
  cases hfound : Heading.tag? ('<' :: rest) with
  | none => rfl
  | some found =>
    obtain ⟨letter, digit, more, hletter, _, heq, _⟩ := eq_bareTag_of_tag? hfound
    have hbegins : begins letter = true := by
      rcases hletter with rfl | rfl
      · decide
      · decide
    rw [heq] at h
    cases hcloses : found.1.closes with
    | true =>
      rw [hcloses] at h
      cases begins_eq_false_of_markup? h
    | false =>
      rw [hcloses] at h
      cases hbegins.symm.trans (begins_eq_false_of_markup? h)

/-- A reader finds the tags that were there, those that are bare with their levels changed. -/
theorem outlineOf_promoted (levels : Nat) (cs : List Char) :
    outlineOf (promoted levels cs) = (outlineOf cs).map (HeadingTag.promote levels) := by
  induction hlength : cs.length using Nat.strong_induction_on generalizing cs with
  | _ n ih =>
    subst hlength
    cases cs with
    | nil => rfl
    | cons c rest =>
      by_cases hc : c = '<'
      · subst hc
        obtain ⟨out, hout, _⟩ := exists_promoted_open levels rest
        have hmarkup := markup?_promoted hout
        cases hfound : markup? ('<' :: rest) with
        | none =>
          have hnone := tag?_eq_none_of_markup? hfound
          rw [hfound] at hmarkup
          rw [hout, outlineOf_of_none hfound, outlineOf_of_none hmarkup]
          rw [promoted_cons_of_none hnone] at hout
          obtain rfl := (List.cons.inj hout).2
          exact ih _ (Nat.lt_succ_self _) rest rfl
        | some read =>
          obtain ⟨found, length⟩ := read
          obtain ⟨n, rfl⟩ : ∃ n, length = n + 1 := by
            rcases length_of_markup? hfound with ⟨_, _, _, h⟩ | h
            · exact ⟨_, h⟩
            · exact ⟨_, h⟩
          have hless : (rest.drop n).length < ('<' :: rest).length := by
            rw [List.length_drop, List.length_cons]
            omega
          rw [hfound] at hmarkup
          rw [hout, outlineOf_of_some hfound, outlineOf_of_some hmarkup, List.map_append,
            drop_promoted hfound hout, ih _ hless _ rfl]
          cases found with
          | none => rfl
          | some tag => rfl
      · rw [promoted_cons_of_ne hc, outlineOf_cons_of_ne hc, outlineOf_cons_of_ne hc]
        exact ih _ (Nat.lt_succ_self _) rest rfl

end RegisterMap.Html
