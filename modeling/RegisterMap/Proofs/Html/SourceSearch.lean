import RegisterMap.Proofs.Html.ImageTag

/-!
What the search for a source finds. Wherever it succeeds a tag of an image is in front, up to
its first `/>`, and it is taken apart around a value that stands between two quotes behind the
name of a source.
-/

namespace RegisterMap.Html

/-- A tag is searched up to its first end. -/
theorem of_untilClose?_eq_some {cs inside : List Char} (h : untilClose? cs = some inside) :
    ∃ rest, cs = inside ++ '/' :: '>' :: rest ∧ ¬['/', '>'] <:+: inside := by
  induction cs using untilClose?.induct generalizing inside with
  | case1 => cases h
  | case2 rest =>
    cases h
    exact ⟨rest, rfl, by simp⟩
  | case3 c cs hopen ih =>
    rw [untilClose?.eq_3 c cs hopen] at h
    obtain ⟨more, hmore, rfl⟩ := Option.map_eq_some_iff.1 h
    obtain ⟨rest, rfl, hno_end⟩ := ih hmore
    refine ⟨rest, rfl, fun hend => ?_⟩
    rcases List.infix_cons_iff.1 hend with ⟨tail, heq⟩ | hlater
    · obtain ⟨rfl, rfl⟩ := List.cons.inj heq
      exact hopen _ rfl rfl
    · exact hno_end hlater

/-- A source with its value between quotes, from its name on. -/
structure QuotedSource where
  name : List Char
  beforeSign : List Char
  behindSign : List Char
  quote : Char
  value : List Char
  name_eq : name.map Char.toLower = ['s', 'r', 'c']
  isTagBlank_beforeSign : ∀ c ∈ beforeSign, isTagBlank c = true
  isTagBlank_behindSign : ∀ c ∈ behindSign, isTagBlank c = true
  quote_eq : quote = '"' ∨ quote = '\''
  quote_not_mem : quote ∉ value

/-- What stands in front of the value of a source, from its name to the first quote. -/
def QuotedSource.lead (q : QuotedSource) : List Char :=
  q.name ++ (q.beforeSign ++ '=' :: (q.behindSign ++ [q.quote]))

theorem QuotedSource.utf8Size_quote (q : QuotedSource) : q.quote.utf8Size = 1 := by
  rcases q.quote_eq with h | h <;> rw [h] <;> rfl

namespace Source

variable {cs : List Char} {s : Source}

/-- A quoted value goes from its quote to the next of the same kind. -/
theorem of_quoted?_eq_some (h : quoted? cs = some s) :
    ∃ quote rest, (quote = '"' ∨ quote = '\'') ∧ quote ∉ s.value ∧
      cs = quote :: (s.value ++ quote :: rest) ∧ s.before = [quote] ∧ s.after = quote :: rest := by
  cases cs with
  | nil => cases h
  | cons quote cs =>
    rw [quoted?] at h
    split at h
    case isFalse => cases h
    case isTrue hquoted =>
      obtain ⟨hquote, hafter⟩ := hquoted
      cases h
      have hvalue : quote ∉ cs.takeWhile (· != quote) := fun hmem => by
        simpa using List.mem_takeWhile_imp hmem
      obtain ⟨rest, hrest⟩ : ∃ rest, cs.dropWhile (· != quote) = quote :: rest := by
        obtain ⟨c, rest, hdrop⟩ := List.exists_cons_of_ne_nil hafter
        have hc := List.head?_dropWhile_not (· != quote) cs
        rw [hdrop] at hc
        obtain rfl : c = quote := by simpa using hc
        exact ⟨rest, hdrop⟩
      refine ⟨quote, rest, hquote, hvalue, ?_, rfl, hrest⟩
      rw [← hrest, List.takeWhile_append_dropWhile]

/-- A source at the front is taken apart around its value. -/
theorem of_attribute?_eq_some (h : attribute? cs = some s) :
    ∃ (q : QuotedSource) (rest : List Char),
      cs = q.lead ++ (q.value ++ q.quote :: rest) ∧ s = ⟨q.lead, q.value, q.quote :: rest⟩ := by
  obtain ⟨⟨name, cs'⟩, hword, hsource⟩ := Option.bind_eq_some_iff.1 h
  obtain ⟨hname, rfl⟩ := word?_eq_some_iff.1 hword
  dsimp only at hsource
  split at hsource
  case h_2 => cases hsource
  case h_1 assigned hsign =>
    obtain ⟨found, hquoted, heq⟩ := Option.bind_eq_some_iff.1 hsource
    obtain ⟨quote, rest, hquote, hvalue, hassigned, hbefore, hafter⟩ :=
      of_quoted?_eq_some hquoted
    cases heq
    refine ⟨⟨name, cs'.takeWhile isTagBlank, assigned.takeWhile isTagBlank, quote, found.value,
      hname, fun c hc => List.mem_takeWhile_imp hc, fun c hc => List.mem_takeWhile_imp hc, hquote,
      hvalue⟩, rest, ?_, ?_⟩
    · have hblanks := List.takeWhile_append_dropWhile (p := isTagBlank) (l := cs')
      have hmore := List.takeWhile_append_dropWhile (p := isTagBlank) (l := assigned)
      rw [hsign] at hblanks
      rw [hassigned] at hmore
      simp only [QuotedSource.lead, List.append_assoc, List.cons_append, List.nil_append]
      rw [hmore, hblanks]
    · simp [QuotedSource.lead, hbefore, hafter]

/-- The source that is found in some attributes stands at their front or behind white space. -/
theorem of_find?_eq_some {afterSpace : Bool} (h : find? afterSpace cs = some s) :
    ∃ (front : List Char) (q : QuotedSource) (rest : List Char),
      cs = front ++ (q.lead ++ (q.value ++ q.quote :: rest)) ∧
      s = ⟨front ++ q.lead, q.value, q.quote :: rest⟩ ∧ endsBlank afterSpace front = true := by
  induction cs generalizing afterSpace s with
  | nil => cases h
  | cons c cs ih =>
    unfold find? at h
    split at h
    case h_1 source hhere =>
      cases h
      obtain ⟨rfl, hattribute⟩ : afterSpace = true ∧ attribute? (c :: cs) = some s := by
        simpa using hhere
      obtain ⟨q, rest, hcs, hs⟩ := of_attribute?_eq_some hattribute
      exact ⟨[], q, rest, hcs, hs, rfl⟩
    case h_2 =>
      obtain ⟨later, hlater, rfl⟩ := Option.map_eq_some_iff.1 h
      obtain ⟨front, q, rest, rfl, rfl, hspace⟩ := ih hlater
      exact ⟨c :: front, q, rest, rfl, rfl, hspace⟩

theorem append_of_find?_eq_some {afterSpace : Bool} (h : find? afterSpace cs = some s) :
    cs = s.before ++ (s.value ++ s.after) := by
  obtain ⟨front, q, rest, hcs, rfl, _⟩ := of_find?_eq_some h
  rw [hcs, List.append_assoc]

end Source

/-- The tag of an image up to its first end, around the value of a source in it. -/
structure FoundTag extends QuotedSource where
  blanks : List Char
  word : List Char
  front : List Char
  back : List Char
  isTagBlank_blanks : ∀ c ∈ blanks, isTagBlank c = true
  word_eq : word.map Char.toLower = ['i', 'm', 'g']
  endsBlank_front : Source.endsBlank true front = true
  no_end : ¬['/', '>'] <:+: front ++ (toQuotedSource.lead ++ (value ++ quote :: back))

namespace FoundTag

/-- A tag taken apart around the value of its source. -/
def source (tag : FoundTag) : Source where
  before := '<' :: (tag.blanks ++ (tag.word ++ (tag.front ++ tag.lead)))
  value := tag.value
  after := tag.quote :: (tag.back ++ ['/', '>'])

def text (tag : FoundTag) : List Char :=
  tag.source.before ++ (tag.source.value ++ tag.source.after)

theorem text_ne_nil (tag : FoundTag) : tag.text ≠ [] := by
  simp [text, source]

end FoundTag

theorem of_imageTag?_eq_some {cs lead inside : List Char}
    (h : imageTag? cs = some (lead, inside)) :
    ∃ blanks word rest, (∀ c ∈ blanks, isTagBlank c = true) ∧
      word.map Char.toLower = ['i', 'm', 'g'] ∧ lead = '<' :: (blanks ++ word) ∧
      ¬['/', '>'] <:+: inside ∧ cs = lead ++ (inside ++ '/' :: '>' :: rest) := by
  unfold imageTag? at h
  split at h
  case h_2 => cases h
  case h_1 tail =>
    obtain ⟨⟨word, more⟩, hword, hrest⟩ := Option.bind_eq_some_iff.1 h
    obtain ⟨attributes, hclose, heq⟩ := Option.bind_eq_some_iff.1 hrest
    cases heq
    obtain ⟨hlower, hname⟩ := word?_eq_some_iff.1 hword
    obtain ⟨rest, rfl, hno_end⟩ := of_untilClose?_eq_some hclose
    refine ⟨tail.takeWhile isTagBlank, word, rest, fun c hc => List.mem_takeWhile_imp hc, hlower,
      rfl, hno_end, ?_⟩
    have hblanks := List.takeWhile_append_dropWhile (p := isTagBlank) (l := tail)
    rw [hname] at hblanks
    simp [hblanks]

/-- Where a source is found, the tag of an image is in front, and the source stands in it. -/
theorem of_imageSource?_eq_some {cs : List Char} {s : Source} {length : Nat}
    (h : imageSource? cs = some (s, length)) :
    ∃ (tag : FoundTag) (rest : List Char),
      cs = tag.text ++ rest ∧ s = tag.source ∧ length = tag.text.length := by
  obtain ⟨⟨lead, inside⟩, htag, hfound⟩ := Option.bind_eq_some_iff.1 h
  obtain ⟨found, hfind, heq⟩ := Option.bind_eq_some_iff.1 hfound
  obtain ⟨blanks, word, rest, hblanks, hword, rfl, hno_end, rfl⟩ := of_imageTag?_eq_some htag
  obtain ⟨front, q, back, rfl, rfl, hspace⟩ := Source.of_find?_eq_some hfind
  cases heq
  refine ⟨⟨q, blanks, word, front, back, hblanks, hword, hspace, hno_end⟩, rest, ?_, ?_, ?_⟩
  · simp [FoundTag.text, FoundTag.source]
  · simp [FoundTag.source]
  · simp [FoundTag.text, FoundTag.source]
    omega

end RegisterMap.Html
