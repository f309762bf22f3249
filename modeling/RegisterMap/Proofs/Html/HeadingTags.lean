import Mathlib.Data.List.Forall2
import Mathlib.Tactic.Common
import RegisterMap.Html.Description
import RegisterMap.Proofs.Html.Cut

/-!
The headings that a fragment has to a reader of markup. A reader goes through the fragment
by its own states: comments and the values of attributes are no tags, whatever they look
like. It tells digits and letters from all other characters, and not from one another, so
that a change of digits into digits and of letters into letters is none to its states.
-/

namespace RegisterMap.Html

/-- The white space inside a tag, for a reader. -/
def isSpace (c : Char) : Bool := isTagBlank c || c == '\x0c'

/-- Where a reader is behind a `<`. -/
inductive Reader where
  | opened
  | closing
  | name
  | between
  | attributeName
  | assigned
  | unquoted
  | doubleQuoted
  | singleQuoted
  | bang
  | dashed
  | comment (dashes : Nat)
  | declaration
deriving DecidableEq, Repr

namespace Reader

/-- Where a reader is behind a character, unless the character is the end of what is read. -/
def next? : Reader → Char → Option Reader
  | doubleQuoted, c => some (if c = '"' then between else doubleQuoted)
  | singleQuoted, c => some (if c = '\'' then between else singleQuoted)
  | comment dashes, c =>
    if c = '-' then some (comment (dashes + 1))
    else if c = '>' ∧ 2 ≤ dashes then none
    else some (comment 0)
  | state, c =>
    if c = '>' then none
    else some <| match state with
      | opened =>
        if c = '/' then closing else if c = '!' then bang else if c = '?' then declaration else name
      | closing => if c.isAlpha then name else declaration
      | name => if isSpace c ∨ c = '/' then between else name
      | between => if isSpace c ∨ c = '/' then between else attributeName
      | attributeName => if c = '=' then assigned else if c = '/' then between else attributeName
      | assigned =>
        if isSpace c then assigned
        else if c = '"' then doubleQuoted
        else if c = '\'' then singleQuoted
        else unquoted
      | unquoted => if isSpace c then between else unquoted
      | bang => if c = '-' then dashed else declaration
      | dashed => if c = '-' then comment 2 else declaration
      | other => other

/-- The length of what is read, up to its end. -/
def length? : Reader → List Char → Option Nat
  | _, [] => none
  | state, c :: rest =>
    match state.next? c with
    | none => some 1
    | some state => (length? state rest).map (· + 1)

theorem eq_of_next?_eq_none {state : Reader} {c : Char} (h : state.next? c = none) : c = '>' := by
  by_contra hc
  cases state <;> simp [next?, hc] at h
  case comment dashes => split at h <;> cases h

theorem exists_eq_append_of_length? {state : Reader} {cs : List Char} {length : Nat}
    (h : state.length? cs = some length) :
    ∃ inside rest, cs = inside ++ '>' :: rest ∧ length = inside.length + 1 := by
  induction cs generalizing state length with
  | nil => cases h
  | cons c rest ih =>
    rw [length?] at h
    split at h
    case h_1 hend =>
      obtain rfl := eq_of_next?_eq_none hend
      exact ⟨[], rest, rfl, (Option.some.inj h).symm⟩
    case h_2 =>
      obtain ⟨n, hn, rfl⟩ := Option.map_eq_some_iff.1 h
      obtain ⟨inside, more, rfl, rfl⟩ := ih hn
      exact ⟨c :: inside, more, rfl, rfl⟩

end Reader

theorem isAlpha_of_isDigit {c : Char} (h : c.isDigit = true) : c.isAlpha = false := by
  obtain ⟨hzero, hnine⟩ := Bool.and_eq_true_iff.1 h
  have hfirst : 48 ≤ c.val.toNat := of_decide_eq_true hzero
  have hlast : c.val.toNat ≤ 57 := of_decide_eq_true hnine
  refine Bool.eq_false_iff.2 fun halpha => ?_
  rcases Bool.or_eq_true_iff.1 halpha with hupper | hlower
  · have hletter : 65 ≤ c.val.toNat := (of_decide_eq_true hupper).1
    omega
  · have hletter : 97 ≤ c.val.toNat := of_decide_eq_true (Bool.and_eq_true_iff.1 hlower).1
    omega

/-- Characters that no reader tells from one another. -/
def SameClass (c d : Char) : Prop :=
  c = d ∨ c.isAlphanum = true ∧ d.isAlphanum = true ∧ c.isAlpha = d.isAlpha

namespace SameClass

variable {c d : Char}

theorem refl (c : Char) : SameClass c c := Or.inl rfl

theorem of_isDigit (hc : c.isDigit = true) (hd : d.isDigit = true) : SameClass c d := by
  have hboth : c.isAlpha = d.isAlpha := (isAlpha_of_isDigit hc).trans (isAlpha_of_isDigit hd).symm
  exact Or.inr ⟨by simp [Char.isAlphanum, hc], by simp [Char.isAlphanum, hd], hboth⟩

theorem eq_iff (h : SameClass c d) {e : Char} (he : e.isAlphanum = false) : c = e ↔ d = e := by
  rcases h with rfl | ⟨hc, hd, _⟩
  · rfl
  · constructor
    · rintro rfl
      exact absurd (hc.symm.trans he) (by simp)
    · rintro rfl
      exact absurd (hd.symm.trans he) (by simp)

theorem isAlpha_eq (h : SameClass c d) : c.isAlpha = d.isAlpha := by
  rcases h with rfl | ⟨_, _, h⟩
  · rfl
  · exact h

theorem isSpace_eq (h : SameClass c d) : isSpace c = isSpace d := by
  rw [Bool.eq_iff_iff]
  simp only [isSpace, isTagBlank, Bool.or_eq_true, beq_iff_eq]
  simp (disch := decide) only [h.eq_iff]

theorem next?_eq (h : SameClass c d) (state : Reader) : state.next? c = state.next? d := by
  cases state <;>
    simp (disch := decide) only [Reader.next?, h.isSpace_eq, h.isAlpha_eq, h.eq_iff]

end SameClass

theorem Reader.length?_eq_of_sameClass {cs ds : List Char} (h : List.Forall₂ SameClass cs ds)
    (state : Reader) : state.length? cs = state.length? ds := by
  induction h generalizing state with
  | nil => rfl
  | cons hclass _ ih => simp only [length?, hclass.next?_eq, ih]

/-- A tag of a heading as a reader finds it, with any digit as its level. It is bare where
the level is followed by the end of the tag. -/
structure HeadingTag where
  closes : Bool
  level : Nat
  bare : Bool
deriving DecidableEq, Repr

namespace HeadingTag

/-- The characters of a tag's name and the one behind it. A tag that closes has nothing
behind its name. -/
structure IsNamed (closes : Bool) (h digit next : Char) : Prop where
  letter : h = 'h' ∨ h = 'H'
  digit : digit.isDigit = true
  next : next = '>' ∨ closes = false ∧ (isSpace next = true ∨ next = '/')

instance (closes : Bool) (h digit next : Char) : Decidable (IsNamed closes h digit next) :=
  decidable_of_iff ((h = 'h' ∨ h = 'H') ∧ digit.isDigit = true ∧
      (next = '>' ∨ closes = false ∧ (isSpace next = true ∨ next = '/')))
    ⟨fun ⟨hletter, hdigit, hnext⟩ => ⟨hletter, hdigit, hnext⟩,
      fun hname => ⟨hname.letter, hname.digit, hname.next⟩⟩

theorem IsNamed.not_mem {closes : Bool} {h digit next : Char}
    (hname : IsNamed closes h digit next) : '<' ∉ [h, digit, next] := by
  intro hopen
  simp only [List.mem_cons, List.not_mem_nil, or_false] at hopen
  rcases hopen with rfl | rfl | rfl
  · exact absurd hname.letter (by decide)
  · cases hname.digit
  · exact absurd hname.next (by simp [isSpace, isTagBlank])

/-- The tag whose name is at the front. -/
def ofName? (closes : Bool) : List Char → Option HeadingTag
  | h :: digit :: next :: _ =>
    if IsNamed closes h digit next then
      some { closes, level := digit.toNat - '0'.toNat, bare := next == '>' }
    else none
  | _ => none

theorem ofName?_eq_some_iff {closes : Bool} {cs : List Char} {tag : HeadingTag} :
    ofName? closes cs = some tag ↔
      ∃ h digit next rest, IsNamed closes h digit next ∧ cs = h :: digit :: next :: rest ∧
        tag = ⟨closes, digit.toNat - '0'.toNat, next == '>'⟩ := by
  constructor
  · intro hfound
    unfold ofName? at hfound
    split at hfound
    · next h digit next rest =>
      split at hfound
      · next hname => exact ⟨h, digit, next, rest, hname, rfl, (Option.some.inj hfound).symm⟩
      · cases hfound
    · cases hfound
  · rintro ⟨h, digit, next, rest, hname, rfl, rfl⟩
    exact if_pos hname

/-- The tag whose `<` is in front of a text. -/
def behind? : List Char → Option HeadingTag
  | '/' :: rest => ofName? true rest
  | rest => ofName? false rest

end HeadingTag

/-- Whether a reader takes a `<` in front of a character for more than text. -/
def begins (c : Char) : Bool := c.isAlpha || c == '!' || c == '?' || c == '/'

/-- What a reader reads at a `<`, with the heading's tag that it is. What has no end is no
tag. -/
def markup? : List Char → Option (Option HeadingTag × Nat)
  | '<' :: c :: rest =>
    if begins c then
      match Reader.opened.length? (c :: rest) with
      | some length => some (HeadingTag.behind? (c :: rest), length + 1)
      | none => some (none, rest.length + 2)
    else none
  | _ => none

theorem SameClass.begins_eq {c d : Char} (h : SameClass c d) : begins c = begins d := by
  rw [Bool.eq_iff_iff]
  simp (disch := decide) only [begins, Bool.or_eq_true, beq_iff_eq, h.isAlpha_eq, h.eq_iff]

theorem begins_eq_false_of_markup? {c : Char} {rest : List Char}
    (h : markup? ('<' :: c :: rest) = none) : begins c = false := by
  simp only [markup?] at h
  split at h
  case isTrue =>
    split at h
    · cases h
    · cases h
  case isFalse hc => exact Bool.not_eq_true _ ▸ hc

theorem behind?_of_markup? {cs : List Char} {tag : HeadingTag} {length : Nat}
    (h : markup? cs = some (some tag, length)) :
    ∃ rest, HeadingTag.behind? rest = some tag := by
  unfold markup? at h
  split at h
  · next c rest =>
    split at h
    · split at h
      · exact ⟨c :: rest, congrArg Prod.fst (Option.some.inj h)⟩
      · cases h
    · cases h
  · cases h

/-- What is read at a `<` ends behind a `>`, or with the fragment. -/
theorem length_of_markup? {rest : List Char} {found : Option HeadingTag} {length : Nat}
    (h : markup? ('<' :: rest) = some (found, length)) :
    (∃ inside back, rest = inside ++ '>' :: back ∧ length = inside.length + 2) ∨
      length = rest.length + 1 := by
  cases rest with
  | nil => cases h
  | cons c more =>
    simp only [markup?] at h
    split at h
    case isFalse => cases h
    case isTrue =>
      split at h
      case h_1 n hlength =>
        obtain ⟨inside, back, heq, rfl⟩ := Reader.exists_eq_append_of_length? hlength
        cases h
        exact Or.inl ⟨inside, back, heq, rfl⟩
      case h_2 =>
        cases h
        exact Or.inr rfl

def Piece.headingTag? : Piece (Option HeadingTag) → Option HeadingTag
  | .char _ => none
  | .tag found => found

/-- The tags of a fragment that are named like those of headings, with any digit. The text of
an element is read as markup, whatever the element is. -/
def outlineOf (cs : List Char) : List HeadingTag :=
  (cut markup? 0 cs).filterMap Piece.headingTag?

theorem outlineOf_cons_of_ne {c : Char} (hc : c ≠ '<') (rest : List Char) :
    outlineOf (c :: rest) = outlineOf rest := by
  rw [outlineOf, cut_cons_of_ne hc]
  rfl

theorem outlineOf_of_none {rest : List Char} (h : markup? ('<' :: rest) = none) :
    outlineOf ('<' :: rest) = outlineOf rest := by
  rw [outlineOf, cut_cons_of_none h]
  rfl

theorem outlineOf_of_some {rest : List Char} {found : Option HeadingTag} {length : Nat}
    (h : markup? ('<' :: rest) = some (found, length + 1)) :
    outlineOf ('<' :: rest) = found.toList ++ outlineOf (rest.drop length) := by
  rw [outlineOf, cut_cons_of_some h]
  cases found with
  | none => rfl
  | some tag => rfl

theorem behind?_of_mem_outlineOf {cs : List Char} {tag : HeadingTag} (h : tag ∈ outlineOf cs) :
    ∃ rest, HeadingTag.behind? rest = some tag := by
  obtain ⟨piece, hpiece, hfound⟩ := List.mem_filterMap.1 h
  cases piece with
  | char c => cases hfound
  | tag found =>
    obtain rfl : found = some tag := hfound
    obtain ⟨rest, length, hmarkup⟩ := exists_tag?_of_mem_cut hpiece
    exact behind?_of_markup? hmarkup

def outline (html : String) : List HeadingTag := outlineOf html.toList

example : outline "<h1>A</h1 ><!-- <h2> --><h3 title='<h4>'/>" =
    [⟨false, 1, true⟩, ⟨false, 3, false⟩] := by decide

end RegisterMap.Html
