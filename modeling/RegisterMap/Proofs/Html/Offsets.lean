import RegisterMap.Proofs.Html.Edits
import RegisterMap.Proofs.Text.Bytes

/-!
Bundled descriptions by their bytes. What is found in a text can be told by the number of bytes
that are left behind it: places are differences of such numbers, and the tag of an image is put
together again from slices between them. A slice might begin inside a character and a difference
be below zero, but none is: gone through by bytes, every text has the same outcome as by its
characters.
-/

namespace RegisterMap.Html.Scan

open Text

/-! The search by bytes. There is no outcome where a slice or a difference does not exist. -/

/-- The attributes in the tag of an image at the front, and what is behind the tag. -/
def imageTag? (input : String) : Option (String × String) :=
  (Html.imageTag? input.toList).map fun (lead, attributes) =>
    (String.ofList attributes,
      String.ofList (input.toList.drop (lead.length + attributes.length + 2)))

/-- The value of a source at the front, and what is behind its second quote. -/
def source? (input : String) : Option (String × String) :=
  (Source.attribute? input.toList).map fun s => (String.ofList s.value, String.ofList s.after.tail)

/-- The source at a place in some attributes, if white space is in front of it. -/
def sourceAt? (attributes : String) (afterSpace : Bool) (place : Nat) :
    Option (Option (String × String)) :=
  if afterSpace then (sliceFrom? attributes place).map source? else some none

/-- The range of a value in some attributes, by what is behind its second quote. -/
def range? (attributes value behind : String) : Option (Nat × Nat) := do
  let stop ← minus? (← minus? attributes.utf8ByteSize behind.utf8ByteSize) 1
  let start ← minus? stop value.utf8ByteSize
  return (start, stop)

/-- The range of the first source's value in some attributes. Their characters are gone through
one by one, from a place on. -/
def valueRange? (attributes : String) : Bool → Nat → List Char → Option (Option (Nat × Nat))
  | _, _, [] => some none
  | afterSpace, place, c :: rest => do
    match ← sourceAt? attributes afterSpace place with
    | some (value, behind) => return some (← range? attributes value behind)
    | none => valueRange? attributes (isBlank c) (place + c.utf8Size) rest

/-- The name of an image in the output. -/
def assetName? (content : ByteArray) (file : Path) : Option String := do
  let digest := String.ofList ((Digest.sha256 content.toList).flatMap hexByte)
  return (← sliceTo? digest 8) ++ "_" ++ file.fileName?.getD ""

/-- The images so far, and the file that could not be read. -/
structure Progress where
  assets : FileSet
  failure : Option ExportError

/-- The tag at the front of a text with another value in a range of its attributes, and the
number of bytes that the tag takes. -/
def retag? (ahead attributes behind : String) (start stop : Nat) (value : String) :
    Option (Nat × String) := do
  let consumed ← minus? ahead.utf8ByteSize behind.utf8ByteSize
  let lead ← minus? (← minus? consumed attributes.utf8ByteSize) 2
  let tag ← sliceTo? ahead consumed
  return (consumed, (← sliceTo? tag (lead + start)) ++ value ++ (← sliceFrom? tag (lead + stop)))

/-- What the tag at the front of a text is changed to, if it is one of an image that is found,
and the number of bytes that it takes. -/
def editTag (view : FileView) (origin : Option Path) (p : Progress) (ahead : String) :
    Option (Progress × Option (Nat × String)) :=
  if p.failure.isSome then some (p, none)
  else
    match imageTag? ahead with
    | none => some (p, none)
    | some (attributes, behind) => do
      match ← valueRange? attributes true 0 attributes.toList with
      | none => return (p, none)
      | some (start, stop) =>
        match locate? view origin (← slice? attributes start stop).toList with
        | none => return (p, none)
        | some file =>
          match view.read? file with
          | none => return ({ p with failure := some (.io file) }, none)
          | some content =>
            let target := Path.join ⟨"content"⟩ ⟨← assetName? content file⟩
            let change ← retag? ahead attributes behind start stop (String.ofList (sourceOf target))
            return ({ p with assets := p.assets.insertNew target content }, some change)

/-- A text with its tags changed, from a place on and behind what has come out. At each `<` some
of what is ahead may be taken for a tag. There is no outcome where some rounds are not enough. -/
def rewriteFrom {σ : Type} (edit : σ → String → Option (σ × Option (Nat × String)))
    (html : String) : Nat → σ → String → Nat → Option (σ × String)
  | 0, _, _, _ => none
  | rounds + 1, s, out, place => do
    match find? (← sliceFrom? html place) '<' with
    | none => return (s, out ++ (← sliceFrom? html place))
    | some found =>
      let start := place + found
      let kept ← slice? html place start
      let (s, change) ← edit s (← sliceFrom? html start)
      match change with
      | some (consumed, replacement) =>
        rewriteFrom edit html rounds s (out ++ kept ++ replacement) (start + consumed)
      | none => rewriteFrom edit html rounds s (out ++ kept ++ "<") (start + 1)

/-- What a search comes to. -/
def Progress.finish (p : Progress) (out : String) : Except ExportError (String × FileSet) :=
  match p.failure with
  | some e => .error e
  | none => .ok (out, p.assets)

/-- A fragment with the sources of its images changed to where they are put. A tag begins at no
more places than there are characters. -/
def bundleImages (view : FileView) (origin : Option Path) (html : String) (assets : FileSet) :
    Option (Except ExportError (String × FileSet)) :=
  (rewriteFrom (editTag view origin) html (html.length + 1) ⟨assets, none⟩ "" 0).map fun done =>
    done.1.finish done.2

/-! What is found in a text. -/

theorem sourceAt?_eq (front : String) (cs : List Char) (afterSpace : Bool) :
    sourceAt? (front ++ String.ofList cs) afterSpace front.utf8ByteSize =
      some ((if afterSpace then Source.attribute? cs else none).map fun s =>
        (String.ofList s.value, String.ofList s.after.tail)) := by
  rw [sourceAt?, sliceFrom?_append]
  split
  · rw [Option.map_some, source?, String.toList_ofList]
  · rfl

/-- A value that goes from one quote to the next has the range between the two. -/
theorem range?_eq {quote : Char} (hquote : quote.utf8Size = 1) (front : String)
    (lead value behind : List Char) :
    range? (front ++ String.ofList (lead ++ (value ++ quote :: behind))) (String.ofList value)
        (String.ofList behind) =
      some ((front ++ String.ofList lead).utf8ByteSize,
        (front ++ String.ofList lead).utf8ByteSize + (String.ofList value).utf8ByteSize) := by
  have hsize : (front ++ String.ofList (lead ++ (value ++ quote :: behind))).utf8ByteSize =
      (front ++ String.ofList lead).utf8ByteSize + (String.ofList value).utf8ByteSize + 1 +
        (String.ofList behind).utf8ByteSize := by
    simp only [String.utf8ByteSize_append, utf8ByteSize_ofList_append, utf8ByteSize_ofList_cons,
      hquote]
    omega
  simp only [range?, hsize, minus?_add, Option.bind_eq_bind, Option.bind_some]
  rfl

theorem valueRange?_eq {attributes front : String} {cs : List Char}
    (h : attributes = front ++ String.ofList cs) (afterSpace : Bool) :
    valueRange? attributes afterSpace front.utf8ByteSize cs =
      some ((Source.find? afterSpace cs).map fun s =>
        ((front ++ String.ofList s.before).utf8ByteSize,
          (front ++ String.ofList s.before).utf8ByteSize +
            (String.ofList s.value).utf8ByteSize)) := by
  induction cs generalizing front afterSpace with
  | nil => rfl
  | cons c rest ih =>
    rw [valueRange?, Source.find?]
    have hat := sourceAt?_eq front (c :: rest) afterSpace
    rw [← h] at hat
    cases hhere : if afterSpace then Source.attribute? (c :: rest) else none with
    | none =>
      have hnext : attributes = (front ++ String.singleton c) ++ String.ofList rest := by
        rw [h, String.ofList_cons, String.append_assoc]
      have hlater := ih hnext (isBlank c)
      rw [String.utf8ByteSize_append, String.utf8ByteSize_singleton] at hlater
      rw [hat, hhere]
      change valueRange? attributes (isBlank c) (front.utf8ByteSize + c.utf8Size) rest = _
      rw [hlater, Option.map_map]
      simp only [Function.comp_def, String.ofList_cons, String.append_assoc]
    | some s =>
      obtain ⟨rfl, hattribute⟩ : afterSpace = true ∧ Source.attribute? (c :: rest) = some s := by
        simpa using hhere
      obtain ⟨q, behind, hcs, rfl⟩ := Source.of_attribute?_eq_some hattribute
      have hrange := range?_eq q.utf8Size_quote front q.lead q.value behind
      rw [← hcs, ← h] at hrange
      rw [hat, hhere]
      change (range? attributes (String.ofList q.value) (String.ofList behind)).bind _ = _
      rw [hrange]
      rfl

theorem imageTag?_eq_none {cs : List Char} (h : Html.imageTag? cs = none) :
    imageTag? (String.ofList cs) = none := by
  rw [imageTag?, String.toList_ofList, h, Option.map_none]

theorem exists_imageTag?_eq {cs lead attributes : List Char}
    (h : Html.imageTag? cs = some (lead, attributes)) :
    ∃ behind, cs = lead ++ (attributes ++ '/' :: '>' :: behind) ∧
      imageTag? (String.ofList cs) = some (String.ofList attributes, String.ofList behind) := by
  obtain ⟨_, _, behind, _, _, _, _, hcs⟩ := of_imageTag?_eq_some h
  refine ⟨behind, hcs, ?_⟩
  have hdrop : cs.drop (lead.length + attributes.length + 2) = behind := by
    rw [hcs, ← List.drop_drop, ← List.drop_drop, List.drop_left, List.drop_left]
    rfl
  rw [imageTag?, String.toList_ofList, h, Option.map_some]
  exact congrArg (fun rest => some (String.ofList attributes, String.ofList rest)) hdrop

/-- A digest has digits enough, each of one byte. -/
theorem assetName?_eq (content : ByteArray) (file : Path) :
    assetName? content file = some (assetName content file) := by
  have hdigit : ∀ c ∈ digestDigits content, c.utf8Size = 1 := by
    intro c hc
    by_contra hwide
    have hnarrow : ∀ d < 16, (Nat.digitChar d).utf8Size = 1 := by decide
    refine not_mem_digestDigits (fun d hd => ?_) content hc
    rintro rfl
    exact hwide (hnarrow d hd)
  have hsize := utf8ByteSize_ofList hdigit
  rw [length_digestDigits] at hsize
  rw [assetName?, sliceTo?_ofList hsize]
  rfl

/-- A tag is put together around another value. -/
theorem retag?_eq (lead before value after behind : List Char) (new : String) :
    retag? (String.ofList (lead ++ ((before ++ (value ++ after)) ++ '/' :: '>' :: behind)))
        (String.ofList (before ++ (value ++ after))) (String.ofList behind)
        (String.ofList before).utf8ByteSize
        ((String.ofList before).utf8ByteSize + (String.ofList value).utf8ByteSize) new =
      some ((String.ofList (lead ++ ((before ++ (value ++ after)) ++ ['/', '>']))).utf8ByteSize,
        String.ofList (lead ++ before) ++ new ++ String.ofList (after ++ ['/', '>'])) := by
  generalize htag : lead ++ ((before ++ (value ++ after)) ++ ['/', '>']) = tag
  have hahead : lead ++ ((before ++ (value ++ after)) ++ '/' :: '>' :: behind) = tag ++ behind := by
    simp [← htag]
  have hbefore : tag = (lead ++ before) ++ (value ++ (after ++ ['/', '>'])) := by simp [← htag]
  have hafter : tag = (lead ++ before ++ value) ++ (after ++ ['/', '>']) := by simp [← htag]
  have hsize : (String.ofList tag).utf8ByteSize = (String.ofList lead).utf8ByteSize + 2 +
      (String.ofList (before ++ (value ++ after))).utf8ByteSize := by
    have hend : (String.ofList ['/', '>']).utf8ByteSize = 2 := rfl
    rw [← htag, utf8ByteSize_ofList_append, utf8ByteSize_ofList_append, hend]
    omega
  have hconsumed : minus? (String.ofList (tag ++ behind)).utf8ByteSize
      (String.ofList behind).utf8ByteSize = some (String.ofList tag).utf8ByteSize := by
    rw [utf8ByteSize_ofList_append, minus?_add]
  have hslice : sliceTo? (String.ofList (tag ++ behind)) (String.ofList tag).utf8ByteSize =
      some (String.ofList tag) := by
    rw [String.ofList_append, sliceTo?_append]
  have hfront : sliceTo? (String.ofList tag)
      ((String.ofList lead).utf8ByteSize + (String.ofList before).utf8ByteSize) =
        some (String.ofList (lead ++ before)) := by
    rw [hbefore, String.ofList_append, ← utf8ByteSize_ofList_append, sliceTo?_append]
  have hback : sliceFrom? (String.ofList tag) ((String.ofList lead).utf8ByteSize +
      ((String.ofList before).utf8ByteSize + (String.ofList value).utf8ByteSize)) =
        some (String.ofList (after ++ ['/', '>'])) := by
    rw [hafter, String.ofList_append, ← Nat.add_assoc, ← utf8ByteSize_ofList_append,
      ← utf8ByteSize_ofList_append, sliceFrom?_append]
  have hlead : minus? (String.ofList tag).utf8ByteSize
      (String.ofList (before ++ (value ++ after))).utf8ByteSize =
        some ((String.ofList lead).utf8ByteSize + 2) := by
    rw [hsize, minus?_add]
  rw [hahead, retag?]
  simp only [Option.bind_eq_bind, Option.bind_some, hconsumed, hlead, minus?_add, hslice, hfront,
    hback]
  rfl

section Tags

variable {view : FileView} {origin : Option Path} {p : Progress} {cs : List Char}

theorem editTag_of_failure {e : ExportError} (h : p.failure = some e) (ahead : String) :
    editTag view origin p ahead = some (p, none) := by
  rw [editTag, h, Option.isSome_some, if_pos rfl]

theorem valueRange?_attributes (attributes : List Char) :
    valueRange? (String.ofList attributes) true 0 attributes =
      some ((Source.find? true attributes).map fun s =>
        ((String.ofList s.before).utf8ByteSize,
          (String.ofList s.before).utf8ByteSize + (String.ofList s.value).utf8ByteSize)) := by
  have hfront : String.ofList attributes = "" ++ String.ofList attributes :=
    String.empty_append.symm
  have hrange := valueRange?_eq hfront true
  simpa only [String.empty_append, String.utf8ByteSize_empty] using hrange

/-- The first source's value in the attributes of a tag is sliced out of them. -/
theorem slice?_value {attributes : List Char} {s : Source}
    (h : Source.find? true attributes = some s) :
    slice? (String.ofList attributes) (String.ofList s.before).utf8ByteSize
        ((String.ofList s.before).utf8ByteSize + (String.ofList s.value).utf8ByteSize) =
      some (String.ofList s.value) := by
  have hsplit := Source.append_of_find?_eq_some h
  rw [hsplit, String.ofList_append, String.ofList_append]
  exact slice?_append _ _ _

/-- A tag is put together around another value of its first source. -/
theorem retag?_value {lead attributes behind : List Char} {s : Source}
    (hcs : cs = lead ++ (attributes ++ '/' :: '>' :: behind))
    (h : Source.find? true attributes = some s) (new : List Char) :
    retag? (String.ofList cs) (String.ofList attributes) (String.ofList behind)
        (String.ofList s.before).utf8ByteSize
        ((String.ofList s.before).utf8ByteSize + (String.ofList s.value).utf8ByteSize)
        (String.ofList new) =
      some ((String.ofList (cs.take (lead.length + attributes.length + 2))).utf8ByteSize,
        String.ofList (lead ++ s.before ++ new ++ (s.after ++ ['/', '>']))) := by
  have htake : cs.take (lead.length + attributes.length + 2) =
      lead ++ (attributes ++ ['/', '>']) := by
    have htag : cs = (lead ++ (attributes ++ ['/', '>'])) ++ behind := by simp [hcs]
    have hlength : lead.length + attributes.length + 2 =
        (lead ++ (attributes ++ ['/', '>'])).length := by simp [Nat.add_assoc]
    rw [hlength, htag, List.take_left]
  rw [htake, hcs, Source.append_of_find?_eq_some h, retag?_eq]
  simp only [String.ofList_append]

/-- A tag is edited in the way it is found by its characters. -/
theorem editTag_eq (h : p.failure = none) :
    editTag view origin p (String.ofList cs) = some (
      match foundImage? view origin cs with
      | none => (p, none)
      | some (image, length) =>
        match view.read? image.file with
        | none => ({ p with failure := some (.io image.file) }, none)
        | some content =>
          ({ p with assets := p.assets.insertNew (assetPath content image.file) content },
            some ((String.ofList (cs.take length)).utf8ByteSize,
              String.ofList (image.source.before ++ sourceOf (assetPath content image.file) ++
                image.source.after)))) := by
  rw [editTag, h, Option.isSome_none, if_neg Bool.false_ne_true]
  simp only [foundImage?, imageSource?, Option.bind_eq_bind]
  cases htag : Html.imageTag? cs with
  | none => rw [imageTag?_eq_none htag]; rfl
  | some found =>
    obtain ⟨lead, attributes⟩ := found
    obtain ⟨behind, hcs, hscan⟩ := exists_imageTag?_eq htag
    simp only [hscan, String.toList_ofList, valueRange?_attributes, Option.bind_some]
    cases hfind : Source.find? true attributes with
    | none => rfl
    | some s =>
      simp only [Option.map_some, slice?_value hfind, Option.bind_some, String.toList_ofList]
      cases hfile : locate? view origin s.value with
      | none => rfl
      | some file =>
        simp only [Option.bind_some]
        cases hread : view.read? file with
        | none => rfl
        | some content =>
          simp only [assetName?_eq, Option.bind_some]
          change (retag? _ _ _ _ _ (String.ofList (sourceOf (assetPath content file)))).bind _ = _
          rw [retag?_value hcs hfind]
          rfl

end Tags

/-! The search as a whole. -/

section Rewriting

variable {σ : Type} {edit : σ → String → Option (σ × Option (Nat × String))} {s s' : σ}
  {rounds : Nat}

theorem rewriteFrom_of_not_mem {cs : List Char} (h : '<' ∉ cs) (front out : String) :
    rewriteFrom edit (front ++ String.ofList cs) (rounds + 1) s out front.utf8ByteSize =
      some (s, out ++ String.ofList cs) := by
  have hnone : find? (String.ofList cs) '<' = none := find?_eq_none (by simpa using h)
  rw [rewriteFrom]
  simp only [sliceFrom?_append, Option.bind_eq_bind, Option.bind_some, hnone]
  rfl

/-- A text is gone through up to the first `<`, and what is taken there is passed over. Where
there is no tag, that is the `<` itself. -/
theorem rewriteFrom_append {kept taken behind rest : List Char} {change : Option (Nat × String)}
    {text : String} (hkept : '<' ∉ kept) (hrest : '<' :: rest = taken ++ behind)
    (hedit : edit s (String.ofList ('<' :: rest)) = some (s', change))
    (hchange : change.getD (1, "<") = ((String.ofList taken).utf8ByteSize, text))
    (front out : String) :
    rewriteFrom edit (front ++ String.ofList (kept ++ '<' :: rest)) (rounds + 1) s out
        front.utf8ByteSize =
      rewriteFrom edit ((front ++ String.ofList (kept ++ taken)) ++ String.ofList behind) rounds s'
        (out ++ String.ofList kept ++ text)
        (front ++ String.ofList (kept ++ taken)).utf8ByteSize := by
  have hhtml : front ++ String.ofList (kept ++ '<' :: rest) =
      front ++ (String.ofList kept ++ String.ofList ('<' :: rest)) := by rw [String.ofList_append]
  have hfound : find? (String.ofList (kept ++ '<' :: rest)) '<' =
      some (String.ofList kept).utf8ByteSize := by
    rw [String.ofList_append, String.ofList_cons]
    exact find?_append (by simpa using hkept) _
  have hslice : slice? (front ++ String.ofList (kept ++ '<' :: rest)) front.utf8ByteSize
      (front.utf8ByteSize + (String.ofList kept).utf8ByteSize) = some (String.ofList kept) := by
    rw [hhtml, slice?_append]
  have htag : sliceFrom? (front ++ String.ofList (kept ++ '<' :: rest))
      (front.utf8ByteSize + (String.ofList kept).utf8ByteSize) =
        some (String.ofList ('<' :: rest)) := by
    rw [hhtml, ← String.append_assoc, ← String.utf8ByteSize_append, sliceFrom?_append]
  have hwhole : front ++ String.ofList (kept ++ '<' :: rest) =
      (front ++ String.ofList (kept ++ taken)) ++ String.ofList behind := by
    rw [hrest, String.append_assoc, ← String.ofList_append, List.append_assoc]
  have hplace : (front ++ String.ofList (kept ++ taken)).utf8ByteSize = front.utf8ByteSize +
      (String.ofList kept).utf8ByteSize + (String.ofList taken).utf8ByteSize := by
    rw [String.utf8ByteSize_append, utf8ByteSize_ofList_append, Nat.add_assoc]
  rw [← hwhole, hplace]
  conv_lhs => rw [rewriteFrom]
  simp only [sliceFrom?_append, hfound, hslice, htag, hedit, Option.bind_eq_bind,
    Option.bind_some]
  cases change with
  | none =>
    obtain ⟨hsize, rfl⟩ := Prod.mk.inj hchange
    rw [← hsize]
  | some change =>
    obtain ⟨hsize, rfl⟩ := Prod.mk.inj hchange
    rw [← hsize]

theorem rewriteFrom_of_none {kept rest : List Char} (hkept : '<' ∉ kept)
    (hedit : edit s (String.ofList ('<' :: rest)) = some (s', none)) (front out : String) :
    rewriteFrom edit (front ++ String.ofList (kept ++ '<' :: rest)) (rounds + 1) s out
        front.utf8ByteSize =
      rewriteFrom edit ((front ++ String.ofList (kept ++ ['<'])) ++ String.ofList rest) rounds s'
        (out ++ String.ofList (kept ++ ['<']))
        (front ++ String.ofList (kept ++ ['<'])).utf8ByteSize := by
  have hrest : '<' :: rest = ['<'] ++ rest := rfl
  have hout : out ++ String.ofList kept ++ "<" = out ++ String.ofList (kept ++ ['<']) := by
    rw [String.ofList_append, ← String.append_assoc]
  rw [rewriteFrom_append hkept hrest hedit rfl, hout]

/-- Behind a tag there are rounds enough for what is left. -/
theorem exists_rounds {kept rest : List Char} (h : (kept ++ '<' :: rest).length < rounds) :
    ∃ more, rounds = more + 1 ∧ rest.length < more := by
  obtain ⟨more, rfl⟩ := Nat.exists_eq_add_one.2 (Nat.zero_lt_of_lt h)
  rw [List.length_append, List.length_cons] at h
  exact ⟨more, rfl, by omega⟩

end Rewriting

section Bundling

variable {view : FileView} {origin : Option Path} {p : Progress}

/-- Once a file could not be read nothing more is changed. -/
theorem rewriteFrom_of_failure {e : ExportError} (h : p.failure = some e) {cs : List Char}
    {rounds : Nat} (hrounds : cs.length < rounds) (front out : String) :
    rewriteFrom (editTag view origin) (front ++ String.ofList cs) rounds p out
        front.utf8ByteSize = some (p, out ++ String.ofList cs) := by
  induction cs using cut_induction (fun _ => (none : Option (Unit × Nat))) nofun
    generalizing rounds front out with
  | done cs hcs =>
    obtain ⟨more, rfl⟩ := Nat.exists_eq_add_one.2 (Nat.zero_lt_of_lt hrounds)
    exact rewriteFrom_of_not_mem hcs front out
  | stays kept rest hkept _ ih =>
    obtain ⟨more, rfl, hmore⟩ := exists_rounds hrounds
    rw [rewriteFrom_of_none hkept (editTag_of_failure h _), ih hmore, String.append_assoc,
      ← String.ofList_append, List.append_assoc]
    rfl
  | tag kept rest a length hkept htag => cases htag

/-- From any place on, a fragment is gone through as by its characters, in no more rounds than
there are characters and one. -/
theorem map_finish_rewriteFrom (h : p.failure = none) {cs : List Char} {rounds : Nat}
    (hrounds : cs.length < rounds) (front out : String) :
    ((rewriteFrom (editTag view origin) (front ++ String.ofList cs) rounds p out
        front.utf8ByteSize).map fun done => done.1.finish done.2) =
      some ((bundlePieces view p.assets (cut (foundImage? view origin) 0 cs)).map fun bundled =>
        (out ++ String.ofList bundled.1, bundled.2)) := by
  induction cs using cut_induction (foundImage? view origin) length_pos_of_foundImage?
    generalizing front out p rounds with
  | done cs hcs =>
    obtain ⟨more, rfl⟩ := Nat.exists_eq_add_one.2 (Nat.zero_lt_of_lt hrounds)
    rw [rewriteFrom_of_not_mem hcs, cut_of_not_mem hcs, bundlePieces_chars, Option.map_some,
      Progress.finish, h]
    rfl
  | stays kept rest hkept hnone ih =>
    obtain ⟨more, rfl, hmore⟩ := exists_rounds hrounds
    have hedit : editTag view origin p (String.ofList ('<' :: rest)) = some (p, none) := by
      rw [editTag_eq h, hnone]
    rw [rewriteFrom_of_none hkept hedit, ih h hmore, cut_kept_of_none hkept hnone,
      bundlePieces_chars_append]
    cases bundlePieces view p.assets (cut (foundImage? view origin) 0 rest) with
    | error e => rfl
    | ok bundled => simp [Except.map, String.ofList_append, String.append_assoc]
  | tag kept rest image length hkept htag ih =>
    obtain ⟨more, rfl, hmore⟩ := exists_rounds hrounds
    have hedit : editTag view origin p (String.ofList ('<' :: rest)) = _ := editTag_eq h
    rw [htag] at hedit
    rw [cut_kept_of_some hkept htag, bundlePieces_chars_append]
    cases hread : view.read? image.file with
    | none =>
      simp only [hread] at hedit
      rw [rewriteFrom_of_none hkept hedit, rewriteFrom_of_failure rfl hmore, bundlePieces,
        bundlePiece, hread]
      rfl
    | some content =>
      simp only [hread] at hedit
      have hrest := (List.take_append_drop (length + 1) ('<' :: rest)).symm
      rw [List.drop_succ_cons] at hrest
      have hbehind : (rest.drop length).length < more := by
        rw [List.length_drop]
        omega
      have hlater := ih
        (p := { p with assets := p.assets.insertNew (assetPath content image.file) content }) h
        hbehind
      rw [rewriteFrom_append hkept hrest hedit rfl, hlater, bundlePieces, bundlePiece, hread]
      dsimp only [Except.bind, bind]
      cases bundlePieces view (p.assets.insertNew (assetPath content image.file) content)
          (cut (foundImage? view origin) 0 (rest.drop length)) with
      | error e => rfl
      | ok bundled =>
        simp [Except.map, pure, Except.pure, String.ofList_append, String.append_assoc]

/-- A fragment has one outcome, by bytes and by characters. -/
theorem bundleImages_eq (view : FileView) (origin : Option Path) (html : String)
    (assets : FileSet) :
    bundleImages view origin html assets = some (Html.bundleImages view origin html assets) := by
  have hrounds : html.toList.length < html.length + 1 := by
    rw [String.length_toList]
    exact Nat.lt_succ_self _
  have hwhole : (rewriteFrom (editTag view origin) ("" ++ String.ofList html.toList)
      (html.length + 1) ⟨assets, none⟩ "" "".utf8ByteSize).map
        (fun done => done.1.finish done.2) = _ :=
    map_finish_rewriteFrom rfl hrounds "" ""
  simp only [String.empty_append, String.ofList_toList, String.utf8ByteSize_empty] at hwhole
  rw [bundleImages, hwhole, Html.bundleImages]
  cases bundlePieces view assets (cut (foundImage? view origin) 0 html.toList) <;> rfl

end Bundling

end RegisterMap.Html.Scan

namespace RegisterMap.Html

/-- A description comes out with nothing but sources of images changed. When all goes well, there
are ranges apart from each other, each between the two quotes of a source in the tag of an image
that leads to a file, and one for each such tag; the name of the file's copy comes there, and all
else stays. And gone through by bytes, every description has its outcome: no part of it is asked
for that does not exist. -/
theorem bundleImages_edits_sources (view : FileView) (origin : Option Path) (html : String)
    (assets : FileSet) :
    Scan.bundleImages view origin html assets = some (bundleImages view origin html assets) ∧
    ∀ out result, bundleImages view origin html assets = .ok (out, result) →
      ∃ edits, AreEdits view origin html.toList 0 edits ∧
        (∀ e ∈ edits, e.IsQuoted html.toList) ∧
        out = String.ofList (edited html.toList 0 edits) := by
  refine ⟨Scan.bundleImages_eq view origin html assets, fun out result h => ?_⟩
  obtain ⟨chars, hpieces, rfl⟩ := bundleImages_eq_ok h
  have hfront : html.toList = [] ++ html.toList := rfl
  obtain ⟨edits, hedits, rfl⟩ := exists_edits_of_bundlePieces hfront hpieces
  exact ⟨edits, hedits, fun e he => (hedits.isFound e he).isQuoted, rfl⟩

/-- A file whose content is a word. -/
def pictureFile : FileView where
  isFile p := p.text = "a.png"
  read? _ := some "one".toUTF8

/-- A tag between letters of two bytes, and one that leads to no file. -/
def pictureText : String := "é<IMG alt='ü' src = 'a.png' />ß<img src=\"b.png\"/>"

theorem bundleImages_pictureText :
    ((bundleImages pictureFile none pictureText {}).toOption.map Prod.fst) =
      some "é<IMG alt='ü' src = 'content/7692c3ad_a.png' />ß<img src=\"b.png\"/>" := by
  decide +kernel

theorem bundleImages_edits_sources_of_pictureText :
    ∃ out result edits, bundleImages pictureFile none pictureText {} = .ok (out, result) ∧
      edits ≠ [] ∧ AreEdits pictureFile none pictureText.toList 0 edits ∧
      (∀ e ∈ edits, e.IsQuoted pictureText.toList) ∧
      out = String.ofList (edited pictureText.toList 0 edits) := by
  have hout := bundleImages_pictureText
  cases h : bundleImages pictureFile none pictureText {} with
  | error e =>
    rw [h] at hout
    cases hout
  | ok bundled =>
    obtain ⟨out, result⟩ := bundled
    obtain ⟨edits, hedits, hquoted, hedited⟩ :=
      (bundleImages_edits_sources pictureFile none pictureText {}).2 out result h
    refine ⟨out, result, edits, rfl, ?_, hedits, hquoted, hedited⟩
    rintro rfl
    rw [h] at hout
    have hsame : out = pictureText := by rw [hedited, edited, List.drop_zero, String.ofList_toList]
    have hchanged : pictureText ≠
        "é<IMG alt='ü' src = 'content/7692c3ad_a.png' />ß<img src=\"b.png\"/>" := by
      decide +kernel
    rw [hsame] at hout
    exact hchanged (Option.some.inj hout)

end RegisterMap.Html
