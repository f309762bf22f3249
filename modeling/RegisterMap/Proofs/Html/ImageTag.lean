import Mathlib.Data.List.Infix
import Mathlib.Data.List.TakeWhile
import Mathlib.Tactic.Common
import RegisterMap.Html.Tag

/-!
Tags of images as they are written, and as they are searched. A tag ends at the first `/>`
and its source is looked for behind white space, without regard to quotes. In a tag none of
whose values looks like its end, or like a source in front of the real one, both are found
where they are.
-/

namespace RegisterMap.Html

/-! What the search of a tag is put together from. -/

theorem word?_eq_some_iff {ws cs found rest : List Char} :
    word? ws cs = some (found, rest) ↔ found.map Char.toLower = ws ∧ cs = found ++ rest := by
  induction ws generalizing cs found with
  | nil =>
    rw [word?]
    constructor
    · intro h
      cases h
      exact ⟨rfl, rfl⟩
    · rintro ⟨hlower, rfl⟩
      obtain rfl := List.map_eq_nil_iff.1 hlower
      rfl
  | cons w ws ih =>
    cases cs with
    | nil =>
      rw [word?]
      constructor
      · intro h
        cases h
      · rintro ⟨hlower, hnil⟩
        rw [(List.append_eq_nil_iff.1 hnil.symm).1] at hlower
        cases hlower
    | cons c cs =>
      rw [word?]
      constructor
      · intro h
        split at h
        case isTrue hc =>
          obtain ⟨⟨word, more⟩, hword, heq⟩ := Option.map_eq_some_iff.1 h
          cases heq
          obtain ⟨hlower, rfl⟩ := ih.1 hword
          exact ⟨by rw [List.map_cons, hc, hlower], rfl⟩
        case isFalse => cases h
      · rintro ⟨hlower, heq⟩
        cases found with
        | nil => cases hlower
        | cons d found =>
          obtain ⟨hd, hrest⟩ := List.cons.inj hlower
          obtain ⟨rfl, hcs⟩ := List.cons.inj heq
          rw [if_pos hd, ih.2 ⟨hrest, hcs⟩]
          rfl

theorem untilClose?_cons {c : Char} {rest : List Char} (h : c = '/' → rest.head? ≠ some '>') :
    untilClose? (c :: rest) = (untilClose? rest).map (c :: ·) := by
  refine untilClose?.eq_3 c rest fun tail hc hrest => h hc ?_
  rw [hrest, List.head?_cons]

/-- A text that looks nowhere like the end of a tag is passed over. -/
theorem untilClose?_append {cs rest : List Char} (h : ¬['/', '>'] <:+: cs)
    (hrest : rest.head? ≠ some '>') :
    untilClose? (cs ++ rest) = (untilClose? rest).map (cs ++ ·) := by
  induction cs with
  | nil => simp
  | cons c cs ih =>
    have hopen : c = '/' → (cs ++ rest).head? ≠ some '>' := by
      rintro rfl
      cases cs with
      | nil => exact hrest
      | cons d more =>
        rintro hd
        obtain rfl : d = '>' := by simpa using hd
        exact h ⟨[], more, rfl⟩
    have hshorter : ¬['/', '>'] <:+: cs := fun hcs =>
      h (hcs.trans (List.suffix_cons c cs).isInfix)
    rw [List.cons_append, untilClose?_cons hopen, ih hshorter, Option.map_map]
    rfl

theorem untilClose?_append_of_not_mem {cs rest : List Char} (h : '/' ∉ cs) :
    untilClose? (cs ++ rest) = (untilClose? rest).map (cs ++ ·) := by
  induction cs with
  | nil => simp
  | cons c cs ih =>
    obtain ⟨hc, hcs⟩ := not_or.1 (mt List.mem_cons.2 h)
    rw [List.cons_append, untilClose?_cons fun hslash => absurd hslash.symm hc, ih hcs,
      Option.map_map]
    rfl

/-- A text that goes on with the assignment of a source. -/
def BeginsSource (cs : List Char) : Prop :=
  ∃ word blanks rest, word.map Char.toLower = ['s', 'r', 'c'] ∧
    (∀ c ∈ blanks, isTagBlank c = true) ∧ cs = word ++ (blanks ++ '=' :: rest)

namespace Source

theorem attribute?_eq_none {cs : List Char} (h : ¬BeginsSource cs) : attribute? cs = none := by
  unfold attribute?
  cases hword : word? ['s', 'r', 'c'] cs with
  | none => rfl
  | some found =>
    obtain ⟨word, rest⟩ := found
    obtain ⟨hlower, rfl⟩ := word?_eq_some_iff.1 hword
    simp only [Option.bind_eq_bind, Option.bind_some]
    split
    · next assigned hsign =>
      refine absurd ⟨word, rest.takeWhile isTagBlank, assigned, hlower,
        fun c hc => List.mem_takeWhile_imp hc, ?_⟩ h
      rw [← hsign, List.takeWhile_append_dropWhile]
    · rfl

/-- Whether white space is right in front of what follows a text. -/
def endsBlank : Bool → List Char → Bool
  | afterSpace, [] => afterSpace
  | _, c :: cs => endsBlank (Text.isBlank c) cs

/-- A text in front of another in which no source begins. -/
def Passes : Bool → List Char → List Char → Prop
  | _, [], _ => True
  | afterSpace, c :: cs, rest =>
    (afterSpace = true → ¬BeginsSource (c :: (cs ++ rest))) ∧ Passes (Text.isBlank c) cs rest

theorem find?_append {afterSpace : Bool} {cs rest : List Char} (h : Passes afterSpace cs rest) :
    find? afterSpace (cs ++ rest) =
      (find? (endsBlank afterSpace cs) rest).map fun source =>
        { source with before := cs ++ source.before } := by
  induction cs generalizing afterSpace with
  | nil => simp [endsBlank]
  | cons c cs ih =>
    have hnone : (if afterSpace then attribute? (c :: (cs ++ rest)) else none) = none := by
      split
      case isTrue hspace => exact attribute?_eq_none (h.1 hspace)
      case isFalse => rfl
    rw [List.cons_append, find?, hnone, ih h.2]
    change ((find? _ rest).map _).map _ = (find? _ rest).map _
    rw [Option.map_map]
    rfl

theorem Passes.append {afterSpace : Bool} {front back rest : List Char}
    (hfront : Passes afterSpace front (back ++ rest))
    (hback : Passes (endsBlank afterSpace front) back rest) :
    Passes afterSpace (front ++ back) rest := by
  induction front generalizing afterSpace with
  | nil => exact hback
  | cons c cs ih =>
    refine ⟨fun hspace => ?_, ih hfront.2 hback⟩
    have hnone := hfront.1 hspace
    rwa [← List.append_assoc] at hnone

theorem endsBlank_append (afterSpace : Bool) (front back : List Char) :
    endsBlank afterSpace (front ++ back) = endsBlank (endsBlank afterSpace front) back := by
  induction front generalizing afterSpace with
  | nil => rfl
  | cons c cs ih => exact ih (Text.isBlank c)

theorem not_beginsSource_of_ne {c : Char} (hc : c.toLower ≠ 's') (cs : List Char) :
    ¬BeginsSource (c :: cs) := by
  rintro ⟨word, blanks, rest, hlower, _, heq⟩
  cases word with
  | nil => cases hlower
  | cons d word =>
    obtain rfl : c = d := (List.cons.inj heq).1
    exact hc (List.cons.inj hlower).1

theorem passes_of_ne {cs : List Char} (h : ∀ c ∈ cs, c.toLower ≠ 's') (afterSpace : Bool)
    (rest : List Char) : Passes afterSpace cs rest := by
  induction cs generalizing afterSpace with
  | nil => trivial
  | cons c cs ih =>
    obtain ⟨hc, hcs⟩ := List.forall_mem_cons.1 h
    exact ⟨fun _ => not_beginsSource_of_ne hc _, ih hcs _⟩

/-- A text is searched behind its white space, and at its front if white space is there. -/
theorem passes_of_splits {afterSpace : Bool} {cs rest : List Char}
    (hfront : afterSpace = true → ¬BeginsSource (cs ++ rest))
    (h : ∀ front c back, cs = front ++ c :: back → Text.isBlank c = true →
      ¬BeginsSource (back ++ rest)) : Passes afterSpace cs rest := by
  induction cs generalizing afterSpace with
  | nil => trivial
  | cons c cs ih =>
    refine ⟨hfront, ih (h [] c cs rfl) fun front d back hcs => ?_⟩
    exact h (c :: front) d back (congrArg (c :: ·) hcs)

theorem endsBlank_concat (afterSpace : Bool) (cs : List Char) (c : Char) :
    endsBlank afterSpace (cs ++ [c]) = Text.isBlank c := by
  rw [endsBlank_append]
  rfl

end Source

/-! Attributes and tags. -/

/-- The characters of an attribute's name. -/
def isAttributeChar (c : Char) : Bool :=
  !Text.isBlank c && c != '=' && c != '"' && c != '\'' && c != '/' && c != '>'

theorem isAttributeChar_of_isUpper {c : Char} (h : c.isUpper = true) :
    isAttributeChar c = true := by
  have hrange : 65 ≤ c.toNat ∧ c.toNat ≤ 90 := of_decide_eq_true h
  have hne {d : Char} (hd : ¬(65 ≤ d.toNat ∧ d.toNat ≤ 90)) : (c != d) = true := by
    rw [bne_iff_ne]
    rintro rfl
    exact hd hrange
  have hblank : Text.isBlank c = false := by
    simp only [Text.isBlank, Bool.or_eq_false_iff, Bool.and_eq_false_iff,
      decide_eq_false_iff_not, beq_eq_false_iff_ne]
    omega
  rw [isAttributeChar, hblank, hne (by decide), hne (by decide), hne (by decide),
    hne (by decide), hne (by decide)]
  rfl

/-- The letters of a word, in either case, can stand in a name. -/
theorem isAttributeChar_of_toLower {c : Char} (h : c.toLower ∈ ['s', 'r', 'c']) :
    isAttributeChar c = true := by
  by_cases hupper : c.isUpper = true
  · exact isAttributeChar_of_isUpper hupper
  · have hlower : c.toLower = c := dif_neg fun hrange => hupper (decide_eq_true hrange)
    rw [hlower] at h
    simp only [List.mem_cons, List.not_mem_nil, or_false] at h
    rcases h with rfl | rfl | rfl
    · decide
    · decide
    · decide

theorem toLower_ne_of_isTagBlank {c : Char} (h : isTagBlank c = true) :
    c.toLower ≠ 's' ∧ c.toLower ≠ 'i' := by
  simp only [isTagBlank, Bool.or_eq_true, beq_iff_eq] at h
  rcases h with ((rfl | rfl) | rfl) | rfl <;> decide

theorem isBlank_of_isTagBlank {c : Char} (h : isTagBlank c = true) : Text.isBlank c = true := by
  simp only [isTagBlank, Bool.or_eq_true, beq_iff_eq] at h
  rcases h with ((rfl | rfl) | rfl) | rfl <;> decide

theorem isAttributeChar_of_isTagBlank {c : Char} (h : isTagBlank c = true) :
    isAttributeChar c = false := by
  simp only [isTagBlank, Bool.or_eq_true, beq_iff_eq] at h
  rcases h with ((rfl | rfl) | rfl) | rfl <;> decide

/-- A name ends at the sign of its assignment, or at the blanks in front of it. -/
theorem takeWhile_isAttributeChar {name blanks rest : List Char}
    (hname : ∀ c ∈ name, isAttributeChar c = true) (hblanks : ∀ c ∈ blanks, isTagBlank c = true) :
    (name ++ (blanks ++ '=' :: rest)).takeWhile isAttributeChar = name := by
  rw [List.takeWhile_append_of_pos hname]
  cases blanks with
  | nil => exact List.append_nil _
  | cons c more =>
    have hc := isAttributeChar_of_isTagBlank (hblanks c List.mem_cons_self)
    rw [List.cons_append, List.takeWhile_cons_of_neg (by simp [hc]), List.append_nil]

/-- An attribute with a quoted value, from the blanks in front of it on. -/
structure Attribute where
  blanks : List Char
  name : List Char
  beforeSign : List Char
  behindSign : List Char
  quote : Char
  value : List Char
  blanks_ne_nil : blanks ≠ []
  isTagBlank_blanks : ∀ c ∈ blanks, isTagBlank c = true
  name_ne_nil : name ≠ []
  isAttributeChar_name : ∀ c ∈ name, isAttributeChar c = true
  isTagBlank_beforeSign : ∀ c ∈ beforeSign, isTagBlank c = true
  isTagBlank_behindSign : ∀ c ∈ behindSign, isTagBlank c = true
  quote_eq : quote = '"' ∨ quote = '\''
  quote_not_mem : quote ∉ value

namespace Attribute

/-- Behind the name, up to the quote in front of the value. -/
def sign (a : Attribute) : List Char := a.beforeSign ++ '=' :: (a.behindSign ++ [a.quote])

/-- Everything in front of the value. -/
def lead (a : Attribute) : List Char := a.blanks ++ (a.name ++ a.sign)

def text (a : Attribute) : List Char := a.lead ++ (a.value ++ [a.quote])

def IsSource (a : Attribute) : Prop := a.name.map Char.toLower = ['s', 'r', 'c']

/-- The same attribute with another value. -/
def withValue (a : Attribute) (value : List Char) (h : a.quote ∉ value) : Attribute :=
  { a with value, quote_not_mem := h }

/-- No white space in the value is followed by the assignment of a source. -/
def HidesNoSource (a : Attribute) : Prop :=
  ∀ front c back, a.value = front ++ c :: back → Text.isBlank c = true → ¬BeginsSource back

variable {a : Attribute}

/-- There are two kinds of quotes. -/
@[elab_as_elim]
theorem forall_quote (a : Attribute) {motive : Char → Prop} (double : motive '"')
    (single : motive '\'') : motive a.quote := by
  rcases a.quote_eq with h | h
  · rw [h]
    exact double
  · rw [h]
    exact single

theorem text_append (a : Attribute) (rest : List Char) :
    a.text ++ rest = a.lead ++ (a.value ++ a.quote :: rest) := by
  simp [text]

theorem slash_not_mem_lead (a : Attribute) : '/' ∉ a.lead := by
  intro h
  simp only [lead, sign, List.mem_append, List.mem_cons, List.not_mem_nil, or_false] at h
  rcases h with hblank | hname | hblank | hsign | hblank | hquote
  · cases a.isTagBlank_blanks _ hblank
  · cases a.isAttributeChar_name _ hname
  · cases a.isTagBlank_beforeSign _ hblank
  · cases hsign
  · cases a.isTagBlank_behindSign _ hblank
  · exact absurd hquote (a.forall_quote (by decide) (by decide))

/-- An attribute is passed over on the way to the end of a tag, unless its value looks like
it. -/
theorem untilClose?_text (h : ¬['/', '>'] <:+: a.value) (rest : List Char) :
    untilClose? (a.text ++ rest) = (untilClose? rest).map (a.text ++ ·) := by
  have hquote : a.quote ≠ '/' ∧ a.quote ≠ '>' := a.forall_quote (by decide) (by decide)
  have hhead : (a.quote :: rest).head? ≠ some '>' := by simpa using hquote.2
  rw [text_append, untilClose?_append_of_not_mem a.slash_not_mem_lead,
    untilClose?_append h hhead, untilClose?_cons fun hslash => absurd hslash hquote.1]
  cases untilClose? rest with
  | none => rfl
  | some inside => simp [text_append]

/-! The search for a source, from the front of an attribute on. -/

theorem toLower_quote_ne (a : Attribute) : a.quote.toLower ≠ 's' :=
  a.forall_quote (by decide) (by decide)

theorem toLower_ne_of_mem_sign {c : Char} (h : c ∈ a.sign) : c.toLower ≠ 's' := by
  simp only [sign, List.mem_append, List.mem_cons, List.not_mem_nil, or_false] at h
  rcases h with hblank | rfl | hblank | rfl
  · exact (toLower_ne_of_isTagBlank (a.isTagBlank_beforeSign c hblank)).1
  · decide
  · exact (toLower_ne_of_isTagBlank (a.isTagBlank_behindSign c hblank)).1
  · exact a.toLower_quote_ne

theorem endsBlank_blanks (a : Attribute) (afterSpace : Bool) :
    Source.endsBlank afterSpace a.blanks = true := by
  have hblank := a.isTagBlank_blanks _ (List.getLast_mem a.blanks_ne_nil)
  rw [← List.dropLast_append_getLast a.blanks_ne_nil, Source.endsBlank_concat]
  exact isBlank_of_isTagBlank hblank

theorem isBlank_quote (a : Attribute) : Text.isBlank a.quote = false :=
  a.forall_quote (by decide) (by decide)

/-- What begins with a name is a source only if that is its name. -/
theorem isSource_of_beginsSource {rest : List Char}
    (h : BeginsSource (a.name ++ (a.sign ++ rest))) : a.IsSource := by
  obtain ⟨word, blanks, more, hlower, hblanks, heq⟩ := h
  have hword : ∀ c ∈ word, isAttributeChar c = true := fun c hc =>
    isAttributeChar_of_toLower (hlower ▸ List.mem_map_of_mem hc)
  have hown : (a.name ++ (a.sign ++ rest)).takeWhile isAttributeChar = a.name := by
    rw [sign, List.append_assoc, List.cons_append]
    exact takeWhile_isAttributeChar a.isAttributeChar_name a.isTagBlank_beforeSign
  have hsame : a.name = word := by
    rw [← hown, heq]
    exact takeWhile_isAttributeChar hword hblanks
  rw [IsSource, hsame]
  exact hlower

/-- The quote behind a text makes no source out of it. -/
theorem not_beginsSource_append_quote {back : List Char} (h : ¬BeginsSource back)
    (rest : List Char) : ¬BeginsSource (back ++ a.quote :: rest) := by
  rintro ⟨word, blanks, more, hlower, hblanks, heq⟩
  have hquote : a.quote ∉ word ++ blanks ++ ['='] := by
    simp only [List.mem_append, List.mem_singleton, not_or]
    refine ⟨⟨fun hword => ?_, fun hblank => ?_⟩, ?_⟩
    · have hchar := isAttributeChar_of_toLower (hlower ▸ List.mem_map_of_mem hword)
      have hnone : isAttributeChar a.quote = false := a.forall_quote (by decide) (by decide)
      cases hnone.symm.trans hchar
    · have hspace := isBlank_of_isTagBlank (hblanks _ hblank)
      cases hspace.symm.trans a.isBlank_quote
    · exact a.forall_quote (by decide) (by decide)
  have hsplit : back ++ a.quote :: rest = word ++ blanks ++ ['='] ++ more := by simpa using heq
  rcases List.append_eq_append_iff.1 hsplit with ⟨inside, hlead, hrest⟩ | ⟨inside, hback, _⟩
  · cases inside with
    | nil =>
      refine h ⟨word, blanks, [], hlower, hblanks, ?_⟩
      simpa using hlead.symm
    | cons c others =>
      obtain rfl : a.quote = c := (List.cons.inj hrest).1
      exact hquote (hlead ▸ by simp)
  · exact h ⟨word, blanks, inside, hlower, hblanks, by simpa using hback⟩

/-- An attribute of another name is passed over on the way to the source. -/
theorem passes_text (hname : ¬a.IsSource) (hvalue : a.HidesNoSource) (afterSpace : Bool)
    (rest : List Char) : Source.Passes afterSpace a.text rest := by
  have htext : a.text = a.blanks ++ (a.name ++ (a.sign ++ (a.value ++ [a.quote]))) := by
    simp [text, lead]
  have hlast : Source.endsBlank (Source.endsBlank true a.name) a.sign = false := by
    rw [sign, List.append_cons, ← List.append_assoc, Source.endsBlank_concat]
    exact a.isBlank_quote
  rw [htext]
  refine .append (Source.passes_of_ne (fun c hc => ?_) _ _) ?_
  · exact (toLower_ne_of_isTagBlank (a.isTagBlank_blanks c hc)).1
  rw [a.endsBlank_blanks]
  refine .append (Source.passes_of_splits (fun _ hbegins => ?_) fun front c back hsplit hc => ?_)
    (.append (Source.passes_of_ne (fun c => toLower_ne_of_mem_sign) _ _) ?_)
  · exact hname (isSource_of_beginsSource (by simpa using hbegins))
  · have hchar := a.isAttributeChar_name c (hsplit ▸ by simp)
    simp [isAttributeChar, hc] at hchar
  · rw [hlast]
    refine .append (Source.passes_of_splits nofun fun front c back hsplit hc => ?_) ?_
    · exact not_beginsSource_append_quote (hvalue front c back hsplit hc) rest
    · exact Source.passes_of_ne (by simpa using a.toLower_quote_ne) _ _

/-- A quoted value ends at the first quote of its kind. -/
theorem quoted?_value (a : Attribute) (rest : List Char) :
    Source.quoted? (a.quote :: (a.value ++ a.quote :: rest)) =
      some ⟨[a.quote], a.value, a.quote :: rest⟩ := by
  have hvalue : ∀ c ∈ a.value, (c != a.quote) = true := fun c hc => by
    rw [bne_iff_ne]
    rintro rfl
    exact a.quote_not_mem hc
  have htake : (a.value ++ a.quote :: rest).takeWhile (· != a.quote) = a.value := by
    rw [List.takeWhile_append_of_pos hvalue, List.takeWhile_cons_of_neg (by simp),
      List.append_nil]
  have hdrop : (a.value ++ a.quote :: rest).dropWhile (· != a.quote) = a.quote :: rest := by
    rw [List.dropWhile_append_of_pos hvalue, List.dropWhile_cons_of_neg (by simp)]
  simp only [Source.quoted?, htake, hdrop]
  exact if_pos ⟨a.quote_eq, by simp⟩

theorem attribute?_name (h : a.IsSource) (rest : List Char) :
    Source.attribute? (a.name ++ (a.sign ++ (a.value ++ a.quote :: rest))) =
      some ⟨a.name ++ a.sign, a.value, a.quote :: rest⟩ := by
  have hword : word? ['s', 'r', 'c'] (a.name ++ (a.sign ++ (a.value ++ a.quote :: rest))) =
      some (a.name, a.sign ++ (a.value ++ a.quote :: rest)) := word?_eq_some_iff.2 ⟨h, rfl⟩
  have hquote : ¬isTagBlank a.quote = true := a.forall_quote (by decide) (by decide)
  have hsign : a.sign ++ (a.value ++ a.quote :: rest) =
      a.beforeSign ++ '=' :: (a.behindSign ++ a.quote :: (a.value ++ a.quote :: rest)) := by
    simp [sign]
  rw [hsign] at hword ⊢
  simp only [Source.attribute?, hword, Option.bind_eq_bind, Option.bind_some]
  rw [List.dropWhile_append_of_pos a.isTagBlank_beforeSign,
    List.dropWhile_cons_of_neg (by decide), List.takeWhile_append_of_pos a.isTagBlank_beforeSign,
    List.takeWhile_cons_of_neg (by decide)]
  simp only [List.dropWhile_append_of_pos a.isTagBlank_behindSign,
    List.takeWhile_append_of_pos a.isTagBlank_behindSign, List.dropWhile_cons_of_neg hquote,
    List.takeWhile_cons_of_neg hquote, quoted?_value, Option.bind_some]
  simp [sign]

/-- The value of a source is found where an attribute begins. -/
theorem find?_source (h : a.IsSource) (afterSpace : Bool) (rest : List Char) :
    Source.find? afterSpace (a.text ++ rest) = some ⟨a.lead, a.value, a.quote :: rest⟩ := by
  have hattribute := attribute?_name h rest
  have htext : a.text ++ rest =
      a.blanks ++ (a.name ++ (a.sign ++ (a.value ++ a.quote :: rest))) := by
    simp [text, lead]
  have hblanks : ∀ c ∈ a.blanks, c.toLower ≠ 's' := fun c hc =>
    (toLower_ne_of_isTagBlank (a.isTagBlank_blanks c hc)).1
  rw [htext, Source.find?_append (Source.passes_of_ne hblanks _ _), a.endsBlank_blanks]
  cases hname : a.name with
  | nil => exact absurd hname a.name_ne_nil
  | cons c more =>
    rw [hname] at hattribute
    rw [List.cons_append, Source.find?, if_pos rfl]
    rw [List.cons_append] at hattribute
    rw [hattribute]
    simp [lead, hname]

end Attribute

/-- The tag of an image that closes itself, around its source. -/
structure ImageTag where
  word : List Char
  before : List Attribute
  source : Attribute
  behind : List Attribute
  blanks : List Char
  word_eq : word.map Char.toLower = ['i', 'm', 'g']
  not_isSource_before : ∀ a ∈ before, ¬a.IsSource
  isSource_source : source.IsSource
  isTagBlank_blanks : ∀ c ∈ blanks, isTagBlank c = true

namespace ImageTag

def attributes (tag : ImageTag) : List Attribute := tag.before ++ tag.source :: tag.behind

/-- What stands between the word of a tag and its end. -/
def inside (tag : ImageTag) : List Char := tag.attributes.flatMap Attribute.text ++ tag.blanks

def text (tag : ImageTag) : List Char := '<' :: (tag.word ++ (tag.inside ++ ['/', '>']))

/-- The same tag with another value as its source. -/
def withSource (tag : ImageTag) (value : List Char) (h : tag.source.quote ∉ value) : ImageTag :=
  { tag with source := tag.source.withValue value h }

/-- No value in a tag looks like its end, and none in front of its source like a source. -/
structure IsPlain (tag : ImageTag) : Prop where
  no_end : ∀ a ∈ tag.attributes, ¬['/', '>'] <:+: a.value
  no_source : ∀ a ∈ tag.before, a.HidesNoSource

/-- Everything in front of the value of the source, and everything behind it. -/
def around (tag : ImageTag) : List Char × List Char :=
  ('<' :: (tag.word ++ (tag.before.flatMap Attribute.text ++ tag.source.lead)),
    tag.source.quote :: (tag.behind.flatMap Attribute.text ++ (tag.blanks ++ ['/', '>'])))

theorem text_eq (tag : ImageTag) :
    tag.text = tag.around.1 ++ (tag.source.value ++ tag.around.2) := by
  simp [text, inside, attributes, around, Attribute.text]

theorem text_withSource (tag : ImageTag) {value : List Char} (h : tag.source.quote ∉ value) :
    (tag.withSource value h).text = tag.around.1 ++ (value ++ tag.around.2) :=
  (tag.withSource value h).text_eq

variable {tag : ImageTag}

theorem untilClose?_inside (h : tag.IsPlain) (rest : List Char) :
    untilClose? (tag.inside ++ '/' :: '>' :: rest) = some tag.inside := by
  have hno_end := h.no_end
  have hblanks : '/' ∉ tag.blanks := fun hmem => by cases tag.isTagBlank_blanks _ hmem
  rw [inside]
  generalize tag.attributes = attributes at hno_end ⊢
  induction attributes with
  | nil =>
    rw [List.flatMap_nil, List.nil_append, untilClose?_append_of_not_mem hblanks, untilClose?,
      Option.map_some, List.append_nil]
  | cons a more ih =>
    obtain ⟨ha, hmore⟩ := List.forall_mem_cons.1 hno_end
    rw [List.flatMap_cons, List.append_assoc, List.append_assoc, Attribute.untilClose?_text ha,
      ← List.append_assoc, ih hmore, Option.map_some, List.append_assoc]

theorem imageTag?_text (h : tag.IsPlain) (rest : List Char) :
    imageTag? (tag.text ++ rest) = some ('<' :: tag.word, tag.inside) := by
  have hlower := tag.word_eq
  have hword : word? ['i', 'm', 'g'] (tag.word ++ (tag.inside ++ '/' :: '>' :: rest)) =
      some (tag.word, tag.inside ++ '/' :: '>' :: rest) := word?_eq_some_iff.2 ⟨hlower, rfl⟩
  have htext : tag.text ++ rest = '<' :: (tag.word ++ (tag.inside ++ '/' :: '>' :: rest)) := by
    simp [text]
  have hclose := untilClose?_inside h rest
  cases hchars : tag.word with
  | nil =>
    rw [hchars] at hlower
    cases hlower
  | cons c more =>
    rw [hchars] at hlower htext hword
    rw [List.cons_append] at htext hword
    have hc : ¬isTagBlank c = true := fun hblank =>
      (toLower_ne_of_isTagBlank hblank).2 (List.cons.inj hlower).1
    rw [htext]
    simp only [imageTag?, List.takeWhile_cons_of_neg hc, List.dropWhile_cons_of_neg hc, hword,
      hclose, Option.bind_eq_bind, Option.bind_some]
    rfl

theorem find?_inside (h : tag.IsPlain) :
    Source.find? true tag.inside =
      some ⟨tag.before.flatMap Attribute.text ++ tag.source.lead, tag.source.value,
        tag.source.quote :: (tag.behind.flatMap Attribute.text ++ tag.blanks)⟩ := by
  have hpasses (afterSpace : Bool) (rest : List Char) :
      Source.Passes afterSpace (tag.before.flatMap Attribute.text) rest := by
    have hname := tag.not_isSource_before
    have hvalue := h.no_source
    generalize tag.before = before at hname hvalue
    induction before generalizing afterSpace with
    | nil => trivial
    | cons a more ih =>
      obtain ⟨ha, hmore⟩ := List.forall_mem_cons.1 hname
      obtain ⟨hhides, hothers⟩ := List.forall_mem_cons.1 hvalue
      rw [List.flatMap_cons]
      exact .append (Attribute.passes_text ha hhides _ _) (ih _ hmore hothers)
  have hsplit : tag.inside = tag.before.flatMap Attribute.text ++
      (tag.source.text ++ (tag.behind.flatMap Attribute.text ++ tag.blanks)) := by
    simp [inside, attributes]
  rw [hsplit, Source.find?_append (hpasses _ _),
    Attribute.find?_source tag.isSource_source, Option.map_some]

/-- The source of a plain tag is found, whatever follows the tag. -/
theorem imageSource?_text (h : tag.IsPlain) (rest : List Char) :
    imageSource? (tag.text ++ rest) =
      some (⟨tag.around.1, tag.source.value, tag.around.2⟩, tag.text.length) := by
  simp only [imageSource?, imageTag?_text h rest, find?_inside h, Option.bind_eq_bind,
    Option.bind_some]
  simp [around, text]
  omega

end ImageTag

end RegisterMap.Html
