import Mathlib.Data.List.Basic
import Mathlib.Tactic.Common
import RegisterMap.Proofs.Json.RoundTrip
import RegisterMap.Proofs.Text.Split
import RegisterMap.Proofs.Text.SplitsOff
import RegisterMap.Xml

/-!
XML text read back. A reader takes the tags of a document one by one, with the text behind
each. The elements that are open form a stack; what is read as text goes to the innermost of
them. An element that has other elements in it has no text of its own, so that nothing but
white space may stand around them; every other element keeps its text as it is. A tree whose
elements all have a text or other elements, and not both, is read from its own text.
-/

namespace RegisterMap.Xml

open Text (splitAt allBlank Stops stops_cons takeWhile_append_of_stops)
open Json (charsOf charsOf_append charsOf_cons)

/-! Characters. -/

/-- The character of a reference, which stands between an ampersand and a semicolon. -/
def reference? : List Char → Option Char
  | ['l', 't'] => some '<'
  | ['g', 't'] => some '>'
  | ['a', 'm', 'p'] => some '&'
  | ['q', 'u', 'o', 't'] => some '"'
  | ['a', 'p', 'o', 's'] => some '\''
  | _ => none

/-- A piece of a text behind an ampersand, which stands for itself in no reference. -/
def resolvePiece (piece : List Char) : List Char :=
  match reference? (piece.takeWhile (· ≠ ';')) with
  | some c => c :: (piece.dropWhile (· ≠ ';')).tail
  | none => '&' :: piece

/-- A text with its references resolved. -/
def resolve (cs : List Char) : List Char :=
  (splitAt '&' cs).headD [] ++ (splitAt '&' cs).tail.flatMap resolvePiece

theorem resolve_cons {c : Char} (hc : c ≠ '&') (cs : List Char) :
    resolve (c :: cs) = c :: resolve cs := by
  have hfront : '&' ∉ [c] := by simpa using hc.symm
  obtain ⟨piece, pieces, hpieces, happend⟩ := Text.splitAt_append hfront cs
  simp only [resolve, hpieces, show c :: cs = [c] ++ cs from rfl, happend]
  rfl

theorem resolve_of_not_mem {cs : List Char} (h : '&' ∉ cs) : resolve cs = cs := by
  rw [resolve, Text.splitAt_of_not_mem h]
  simp

/-- A reference at the start of a text is resolved. -/
theorem resolve_reference {c : Char} (name : List Char) (href : reference? name = some c)
    (hamp : '&' ∉ name) (hend : ';' ∉ name) (cs : List Char) :
    resolve ('&' :: (name ++ ';' :: cs)) = c :: resolve cs := by
  have hfront : '&' ∉ name ++ [';'] := by simpa using hamp
  obtain ⟨piece, pieces, hpieces, happend⟩ := Text.splitAt_append hfront cs
  have hsplit : splitAt '&' ('&' :: (name ++ ';' :: cs)) =
      [] :: (name ++ ';' :: piece) :: pieces := by
    rw [splitAt, if_pos rfl]
    simpa using happend
  have hpiece : resolvePiece (name ++ ';' :: piece) = c :: piece := by
    have hstops : Stops (· ≠ ';') (';' :: piece) := stops_cons (by decide) piece
    have hname : ∀ d ∈ name, (d ≠ ';' : Bool) = true := fun d hd =>
      decide_eq_true (ne_of_mem_of_not_mem hd hend)
    obtain ⟨htake, hdrop⟩ := takeWhile_append_of_stops hname hstops
    rw [resolvePiece, htake, href, hdrop]
    rfl
  rw [resolve, hsplit, resolve, hpieces]
  simp [hpiece]

theorem resolve_textChar (c : Char) (cs : List Char) :
    resolve (textChar c ++ cs) = c :: resolve cs := by
  unfold textChar
  split_ifs with hlt hgt hamp
  · exact hlt ▸ resolve_reference ['l', 't'] rfl (by decide) (by decide) cs
  · exact hgt ▸ resolve_reference ['g', 't'] rfl (by decide) (by decide) cs
  · exact hamp ▸ resolve_reference ['a', 'm', 'p'] rfl (by decide) (by decide) cs
  · exact resolve_cons hamp cs

theorem resolve_attributeChar (c : Char) (cs : List Char) :
    resolve (attributeChar c ++ cs) = c :: resolve cs := by
  unfold attributeChar
  split_ifs with hquot hapos
  · exact hquot ▸ resolve_reference ['q', 'u', 'o', 't'] rfl (by decide) (by decide) cs
  · exact hapos ▸ resolve_reference ['a', 'p', 'o', 's'] rfl (by decide) (by decide) cs
  · exact resolve_textChar c cs

theorem resolve_escapeText (s : String) : resolve (escapeText s).toList = s.toList := by
  rw [escapeText, String.toList_ofList]
  induction s.toList with
  | nil => rfl
  | cons c rest ih => rw [List.flatMap_cons, resolve_textChar, ih]

theorem resolve_escapeAttribute (s : String) : resolve (escapeAttribute s).toList = s.toList := by
  rw [escapeAttribute, String.toList_ofList]
  induction s.toList with
  | nil => rfl
  | cons c rest ih => rw [List.flatMap_cons, resolve_attributeChar, ih]

/-- An escaped text has no sign of a tag in it. -/
theorem not_mem_textChar {c d : Char} (h : d ∈ textChar c) : d ≠ '<' ∧ d ≠ '>' := by
  unfold textChar at h
  split_ifs at h with hlt hgt hamp
  all_goals simp only [List.mem_cons, List.not_mem_nil, or_false] at h
  · rcases h with rfl | rfl | rfl | rfl <;> decide
  · rcases h with rfl | rfl | rfl | rfl <;> decide
  · rcases h with rfl | rfl | rfl | rfl | rfl <;> decide
  · exact h ▸ ⟨hlt, hgt⟩

theorem not_mem_attributeChar {c d : Char} (h : d ∈ attributeChar c) :
    d ≠ '<' ∧ d ≠ '>' ∧ d ≠ '"' := by
  unfold attributeChar at h
  split_ifs at h with hquot hapos
  · simp only [List.mem_cons, List.not_mem_nil, or_false] at h
    rcases h with rfl | rfl | rfl | rfl | rfl | rfl <;> decide
  · simp only [List.mem_cons, List.not_mem_nil, or_false] at h
    rcases h with rfl | rfl | rfl | rfl | rfl | rfl <;> decide
  · obtain ⟨hlt, hgt⟩ := not_mem_textChar h
    refine ⟨hlt, hgt, ?_⟩
    rintro rfl
    unfold textChar at h
    split_ifs at h
    all_goals simp at h
    exact hquot h.symm

theorem not_mem_escapeText {s : String} {d : Char} (h : d ∈ (escapeText s).toList) :
    d ≠ '<' ∧ d ≠ '>' := by
  rw [escapeText, String.toList_ofList] at h
  obtain ⟨c, _, hd⟩ := List.mem_flatMap.1 h
  exact not_mem_textChar hd

theorem not_mem_escapeAttribute {s : String} {d : Char} (h : d ∈ (escapeAttribute s).toList) :
    d ≠ '<' ∧ d ≠ '>' ∧ d ≠ '"' := by
  rw [escapeAttribute, String.toList_ofList] at h
  obtain ⟨c, _, hd⟩ := List.mem_flatMap.1 h
  exact not_mem_attributeChar hd

/-! Tags. -/

/-- The characters that a name is taken to be of. -/
def isNameChar (c : Char) : Bool := c.isAlphanum || c == ':' || c == '-' || c == '_' || c == '.'

/-- A name that shows where it ends. -/
def IsName (s : String) : Prop := s.toList ≠ [] ∧ ∀ c ∈ s.toList, isNameChar c = true

instance (s : String) : Decidable (IsName s) :=
  decidable_of_iff (s.toList ≠ [] ∧ s.toList.all isNameChar = true) (by simp [IsName])

/-- A tag, between its signs. What stands before the elements declares the document. -/
inductive Tag
  | start (name : String) (attributes : List (String × String))
  | whole (name : String) (attributes : List (String × String))
  | stop (name : String)
  | declaration

/-- The name in what stands before the value of an attribute. -/
def keyOf? : List Char → Option String
  | ' ' :: key =>
    if key.dropWhile isNameChar = ['='] then some (String.ofList (key.takeWhile isNameChar))
    else none
  | _ => none

/-- The attributes from the pieces of a tag between its quotation marks, and whether the
element ends with the tag. -/
def readAttributes : List (List Char) → Option (List (String × String) × Bool)
  | [last] => if last = [] then some ([], false) else if last = ['/'] then some ([], true) else none
  | key :: value :: rest => do
    let name ← keyOf? key
    let (more, isWhole) ← readAttributes rest
    return ((name, String.ofList (resolve value)) :: more, isWhole)
  | [] => none

def readTag? : List Char → Option Tag
  | '?' :: _ => some .declaration
  | '/' :: name => some (.stop (String.ofList name))
  | markup => do
    let name := String.ofList (markup.takeWhile isNameChar)
    let (attributes, isWhole) ← readAttributes (splitAt '"' (markup.dropWhile isNameChar))
    return if isWhole then .whole name attributes else .start name attributes

theorem isNameChar_ne {c : Char} (h : isNameChar c = true) :
    c ≠ '<' ∧ c ≠ '>' ∧ c ≠ '"' ∧ c ≠ '/' ∧ c ≠ '?' ∧ c ≠ ' ' ∧ c ≠ '=' := by
  refine ⟨?_, ?_, ?_, ?_, ?_, ?_, ?_⟩ <;> rintro rfl <;> exact absurd h (by decide)

/-- The characters of some attributes. -/
def attributeChars (attributes : List (String × String)) : List Char :=
  attributes.flatMap fun a =>
    ' ' :: (a.1.toList ++ '=' :: '"' :: ((escapeAttribute a.2).toList ++ ['"']))

/-- What a tag ends with before its last sign. -/
def ending (isWhole : Bool) : List Char := if isWhole then ['/'] else []

theorem toList_renderAttributes (attributes : List (String × String)) :
    (renderAttributes attributes).toList = attributeChars attributes := by
  rw [renderAttributes, String.toList_join, attributeChars, List.flatMap_map]
  apply List.flatMap_congr
  intro a _
  simp

theorem keyOf?_render {key : String} (h : IsName key) :
    keyOf? (' ' :: (key.toList ++ ['='])) = some key := by
  have hstops : Stops isNameChar ['='] := stops_cons (by decide) []
  obtain ⟨htake, hdrop⟩ := takeWhile_append_of_stops h.2 hstops
  rw [keyOf?, htake, hdrop, if_pos rfl, String.ofList_toList]

theorem readAttributes_render {attributes : List (String × String)}
    (h : ∀ a ∈ attributes, IsName a.1) (isWhole : Bool) :
    readAttributes (splitAt '"' (attributeChars attributes ++ ending isWhole)) =
      some (attributes, isWhole) := by
  induction attributes with
  | nil => cases isWhole <;> decide
  | cons a rest ih =>
    obtain ⟨key, value⟩ := a
    obtain ⟨hkey, hrest⟩ := List.forall_mem_cons.1 h
    have hbefore : '"' ∉ ' ' :: (key.toList ++ ['=']) := by
      intro hmem
      rcases List.mem_cons.1 hmem with hblank | hmem
      · exact absurd hblank (by decide)
      · rcases List.mem_append.1 hmem with hmem | hsign
        · exact (isNameChar_ne (hkey.2 _ hmem)).2.2.1 rfl
        · simp at hsign
    have hvalue : '"' ∉ (escapeAttribute value).toList := fun hmem =>
      (not_mem_escapeAttribute hmem).2.2 rfl
    have hsplit : splitAt '"' (attributeChars ((key, value) :: rest) ++ ending isWhole) =
        (' ' :: (key.toList ++ ['='])) :: (escapeAttribute value).toList ::
          splitAt '"' (attributeChars rest ++ ending isWhole) := by
      have hchars : attributeChars ((key, value) :: rest) ++ ending isWhole =
          (' ' :: (key.toList ++ ['='])) ++ '"' :: ((escapeAttribute value).toList ++
            '"' :: (attributeChars rest ++ ending isWhole)) := by
        simp [attributeChars]
      rw [hchars, Text.splitAt_append_sep, Text.splitAt_append_sep, Text.splitAt_of_not_mem hbefore,
        Text.splitAt_of_not_mem hvalue]
      rfl
    rw [hsplit, readAttributes, keyOf?_render hkey, ih hrest, resolve_escapeAttribute,
      String.ofList_toList]
    rfl

theorem stops_attributeChars (attributes : List (String × String)) (isWhole : Bool) :
    Stops isNameChar (attributeChars attributes ++ ending isWhole) := by
  cases attributes with
  | nil =>
    cases isWhole with
    | false =>
      intro c hc
      cases hc
    | true => exact stops_cons (by decide) []
  | cons a rest => exact stops_cons (by decide) _

/-- A tag of an element is read as what it is. -/
theorem readTag?_render {name : String} {attributes : List (String × String)} (hname : IsName name)
    (h : ∀ a ∈ attributes, IsName a.1) (isWhole : Bool) :
    readTag? (name.toList ++ (attributeChars attributes ++ ending isWhole)) =
      some (if isWhole then .whole name attributes else .start name attributes) := by
  obtain ⟨htake, hdrop⟩ :=
    takeWhile_append_of_stops hname.2 (stops_attributeChars attributes isWhole)
  obtain ⟨c, more, hcons⟩ := List.exists_cons_of_ne_nil hname.1
  have hc := isNameChar_ne (hname.2 c (hcons ▸ List.mem_cons_self))
  have hread : readTag? (name.toList ++ (attributeChars attributes ++ ending isWhole)) =
      (readAttributes (splitAt '"' (attributeChars attributes ++ ending isWhole))).bind
        fun read => some (if read.2 then .whole name read.1 else .start name read.1) := by
    rw [readTag?, htake, hdrop, String.ofList_toList]
    · rfl
    · intro rest hrest
      rw [hcons] at hrest
      exact hc.2.2.2.2.1 (List.cons.inj hrest).1
    · intro rest hrest
      rw [hcons] at hrest
      exact hc.2.2.2.1 (List.cons.inj hrest).1
  rw [hread, readAttributes_render h]
  rfl

/-! Elements. -/

/-- An element that is open, with the text and the elements met in it so far. -/
structure OpenTag where
  name : String
  attributes : List (String × String) := []
  text : List Char := []
  children : List Xml := []

namespace OpenTag

def addText (o : OpenTag) (text : List Char) : OpenTag := { o with text := o.text ++ text }

def addChildren (o : OpenTag) (children : List Xml) : OpenTag :=
  { o with children := o.children ++ children }

/-- An element at its end. Around other elements there is nothing but white space. -/
def close? (o : OpenTag) : Option Xml :=
  if o.children = [] then
    some { name := o.name, attributes := o.attributes, text := some (String.ofList o.text) }
  else if allBlank o.text then
    some { name := o.name, attributes := o.attributes, children := o.children }
  else none

end OpenTag

/-- What a tag does to the open elements, the innermost of which stands first. -/
def takeTag? : Tag → List OpenTag → Option (List OpenTag)
  | .declaration, stack => some stack
  | .start name attributes, stack => some ({ name, attributes } :: stack)
  | .whole name attributes, o :: outer => some (o.addChildren [{ name, attributes }] :: outer)
  | .stop name, o :: parent :: outer =>
    if name = o.name then o.close?.map fun x => parent.addChildren [x] :: outer else none
  | _, _ => none

/-- A piece of a document behind the first sign of a tag: the tag, and the text up to the
next one. -/
def readPiece (stack : List OpenTag) (piece : List Char) : Option (List OpenTag) :=
  match piece.dropWhile (· ≠ '>') with
  | [] => none
  | _ :: text => do
    let tag ← readTag? (piece.takeWhile (· ≠ '>'))
    let stack ← takeTag? tag stack
    return stack.modifyHead (·.addText (resolve text))

/-- Reads a text that starts with a tag. -/
def readFrom (stack : List OpenTag) (cs : List Char) : Option (List OpenTag) :=
  (splitAt '<' cs).tail.foldlM readPiece stack

/-- The element of a document, which stands as one that is open around all others. -/
def read? (document : String) : Option Xml := do
  match ← readFrom [{ name := "" }] document.toList with
  | [around] =>
    match ← around.close? with
    | { children := [root], .. } => return root
    | _ => none
  | _ => none

/-- A tag with what stands before the next one. -/
theorem readPiece_eq {markup after : List Char} {tag : Tag} (hmarkup : '>' ∉ markup)
    (htag : readTag? markup = some tag) (stack : List OpenTag) :
    readPiece stack (markup ++ '>' :: after) =
      (takeTag? tag stack).map fun stack => stack.modifyHead (·.addText (resolve after)) := by
  have hbefore : ∀ c ∈ markup, (c ≠ '>' : Bool) = true := by
    intro c hc
    rw [decide_eq_true_eq]
    rintro rfl
    exact hmarkup hc
  have hstops : Stops (· ≠ '>') ('>' :: after) := stops_cons (by decide) after
  obtain ⟨htake, hdrop⟩ := takeWhile_append_of_stops hbefore hstops
  rw [readPiece, hdrop, htake, htag, Option.map_eq_bind]
  rfl

/-- A text that starts with a tag is read after what stands before it. -/
theorem readFrom_append {stack between : List OpenTag} {front rest : List Char}
    (hfront : readFrom stack front = some between) (hrest : rest.head? = some '<') :
    readFrom stack (front ++ rest) = readFrom between rest := by
  cases rest with
  | nil => cases hrest
  | cons c more =>
    obtain rfl : c = '<' := by simpa using hrest
    obtain ⟨first, pieces, hpieces⟩ := List.exists_cons_of_ne_nil (Text.splitAt_ne_nil '<' front)
    rw [readFrom, hpieces, List.tail_cons] at hfront
    rw [readFrom, Text.splitAt_append_sep, hpieces, List.cons_append, List.tail_cons,
      List.foldlM_append, hfront, readFrom, splitAt, if_pos rfl]
    rfl

theorem readFrom_tag {markup after : List Char} {tag : Tag} (hopen : '<' ∉ markup)
    (hclose : '>' ∉ markup) (hafter : '<' ∉ after) (htag : readTag? markup = some tag)
    (stack : List OpenTag) :
    readFrom stack ('<' :: (markup ++ '>' :: after)) =
      (takeTag? tag stack).map fun stack => stack.modifyHead (·.addText (resolve after)) := by
  have hpiece : '<' ∉ markup ++ '>' :: after := by
    simp only [List.mem_append, List.mem_cons, not_or]
    exact ⟨hopen, by decide, hafter⟩
  rw [readFrom, splitAt, if_pos rfl, Text.splitAt_of_not_mem hpiece, List.tail_cons,
    List.foldlM_cons, readPiece_eq hclose htag]
  cases takeTag? tag stack <;> rfl

/-! The text of a tree. -/

/-- What holds of an element if it holds of all its children. -/
theorem induction {P : Xml → Prop} (step : ∀ x : Xml, (∀ c ∈ x.children, P c) → P x) (x : Xml) :
    P x :=
  @Xml.rec P (fun children => ∀ c ∈ children, P c) (fun _ _ _ _ h => step _ h)
    (fun _ h => by cases h) (fun _ _ hfirst hrest => List.forall_mem_cons.2 ⟨hfirst, hrest⟩) x

mutual

/-- An element and all below it, in the order of their tags. -/
def elements : Xml → List Xml
  | x@{ children, .. } => x :: elementsIn children

def elementsIn : List Xml → List Xml
  | [] => []
  | child :: rest => elements child ++ elementsIn rest

end

theorem elementsIn_eq (children : List Xml) : elementsIn children = children.flatMap elements := by
  induction children with
  | nil => rfl
  | cons child rest ih => rw [elementsIn, ih, List.flatMap_cons]

theorem elements_eq (x : Xml) : x.elements = x :: x.children.flatMap elements := by
  rw [← elementsIn_eq]
  cases x
  rw [elements]

/-- What can be told of an element from its text: names that show where they end, and no text
beside other elements. -/
structure IsPlain (x : Xml) : Prop where
  name : IsName x.name
  attributes : ∀ a ∈ x.attributes, IsName a.1
  text : x.text = none ∨ x.children = []

/-- The characters of an element at a level. -/
def charsAt (level : Nat) (x : Xml) : List Char := charsOf (piecesAt level x)

/-- The characters of some elements, each on a line of its own. -/
def lineChars (level : Nat) (children : List Xml) : List Char :=
  charsOf (linePieces level children)

/-- The start of the line of a tag at a level. -/
def newLineChars (level : Nat) : List Char := '\n' :: List.replicate (2 * level) ' '

/-- What stands between the signs of the first tag of an element. -/
def markup (x : Xml) (isWhole : Bool) : List Char :=
  x.name.toList ++ (attributeChars x.attributes ++ ending isWhole)

/-- The last tag of an element, with something behind it. -/
def stopChars (x : Xml) (after : List Char) : List Char :=
  '<' :: (('/' :: x.name.toList) ++ '>' :: after)

theorem toList_newLine (level : Nat) : (newLine level).toList = newLineChars level := by
  simp [newLine, newLineChars]

theorem lineChars_cons (level : Nat) (child : Xml) (rest : List Xml) :
    lineChars level (child :: rest) =
      newLineChars level ++ (child.charsAt level ++ lineChars level rest) := by
  rw [lineChars, linePieces, charsOf_cons, charsOf_append, toList_newLine]
  rfl

/-! The three shapes of an element. -/

variable {x : Xml}

theorem charsAt_whole (htext : x.text = none) (hchildren : x.children = []) (level : Nat)
    (after : List Char) : x.charsAt level ++ after = '<' :: (x.markup true ++ '>' :: after) := by
  obtain ⟨name, attributes, text, children⟩ := x
  obtain rfl : text = none := htext
  obtain rfl : children = [] := hchildren
  simp [charsAt, piecesAt, charsOf, markup, ending, toList_renderAttributes]

theorem charsAt_text {text : String} (htext : x.text = some text) (hchildren : x.children = [])
    (level : Nat) (after : List Char) :
    x.charsAt level ++ after =
      ('<' :: (x.markup false ++ '>' :: (escapeText text).toList)) ++ x.stopChars after := by
  obtain ⟨name, attributes, _, children⟩ := x
  obtain rfl : _ = some text := htext
  obtain rfl : children = [] := hchildren
  simp [charsAt, piecesAt, charsOf, markup, ending, stopChars, toList_renderAttributes]

theorem charsAt_children {first : Xml} {rest : List Xml} (htext : x.text = none)
    (hchildren : x.children = first :: rest) (level : Nat) (after : List Char) :
    x.charsAt level ++ after =
      ('<' :: (x.markup false ++ '>' :: newLineChars (level + 1))) ++
        (first.charsAt (level + 1) ++ (lineChars (level + 1) rest ++ newLineChars level) ++
          x.stopChars after) := by
  obtain ⟨name, attributes, text, children⟩ := x
  obtain rfl : text = none := htext
  obtain rfl : children = first :: rest := hchildren
  simp [charsAt, lineChars, piecesAt, charsOf, markup, ending, stopChars, toList_renderAttributes,
    toList_newLine]

/-! Reading it. -/

theorem isBlank_newLineChars (level : Nat) : ∀ c ∈ newLineChars level, Text.isBlank c = true := by
  intro c hc
  rcases List.mem_cons.1 hc with rfl | hc
  · decide
  · rw [List.eq_of_mem_replicate hc]
    decide

theorem not_mem_newLineChars {c : Char} (hc : Text.isBlank c = false) (level : Nat) :
    c ∉ newLineChars level := by
  intro hmem
  rw [isBlank_newLineChars level c hmem] at hc
  cases hc

theorem resolve_newLineChars (level : Nat) : resolve (newLineChars level) = newLineChars level :=
  resolve_of_not_mem (not_mem_newLineChars (by decide) level)

theorem not_mem_attributeChars {attributes : List (String × String)}
    (h : ∀ a ∈ attributes, IsName a.1) {c : Char} (hc : c ∈ attributeChars attributes) :
    c ≠ '<' ∧ c ≠ '>' := by
  obtain ⟨a, ha, hc⟩ := List.mem_flatMap.1 hc
  simp only [List.mem_cons, List.mem_append, List.not_mem_nil, or_false] at hc
  rcases hc with rfl | hkey | rfl | rfl | hvalue | rfl
  · decide
  · exact ⟨(isNameChar_ne ((h a ha).2 c hkey)).1, (isNameChar_ne ((h a ha).2 c hkey)).2.1⟩
  · decide
  · decide
  · exact ⟨(not_mem_escapeAttribute hvalue).1, (not_mem_escapeAttribute hvalue).2.1⟩
  · decide

theorem IsPlain.not_mem_markup (hx : x.IsPlain) {isWhole : Bool} {c : Char}
    (hc : c ∈ x.markup isWhole) : c ≠ '<' ∧ c ≠ '>' := by
  rcases List.mem_append.1 hc with hname | hc
  · exact ⟨(isNameChar_ne (hx.name.2 c hname)).1, (isNameChar_ne (hx.name.2 c hname)).2.1⟩
  · rcases List.mem_append.1 hc with hattribute | hending
    · exact not_mem_attributeChars hx.attributes hattribute
    · cases isWhole with
      | false => cases hending
      | true =>
        rw [List.mem_singleton.1 hending]
        decide

/-- The first tag of an element, with some text behind it. -/
theorem IsPlain.readFrom_markup (hx : x.IsPlain) {after : List Char} (hafter : '<' ∉ after)
    (isWhole : Bool) (stack : List OpenTag) :
    readFrom stack ('<' :: (x.markup isWhole ++ '>' :: after)) =
      (takeTag? (if isWhole then .whole x.name x.attributes else .start x.name x.attributes)
        stack).map fun stack => stack.modifyHead (·.addText (resolve after)) :=
  readFrom_tag (fun h => (hx.not_mem_markup h).1 rfl) (fun h => (hx.not_mem_markup h).2 rfl) hafter
    (readTag?_render hx.name hx.attributes isWhole) stack

/-- The last tag of an element closes what is open under its name. -/
theorem IsPlain.readFrom_stopChars (hx : x.IsPlain) {after : List Char} (hafter : '<' ∉ after)
    {o : OpenTag} (hname : o.name = x.name) (hclose : o.close? = some x) (parent : OpenTag)
    (outer : List OpenTag) :
    readFrom (o :: parent :: outer) (x.stopChars after) =
      some ((parent.addChildren [x]).addText (resolve after) :: outer) := by
  have hmem {c : Char} (hc : c ∈ '/' :: x.name.toList) : c ≠ '<' ∧ c ≠ '>' := by
    rcases List.mem_cons.1 hc with rfl | hc
    · decide
    · exact ⟨(isNameChar_ne (hx.name.2 c hc)).1, (isNameChar_ne (hx.name.2 c hc)).2.1⟩
  have htag : readTag? ('/' :: x.name.toList) = some (.stop x.name) := by
    rw [readTag?, String.ofList_toList]
  rw [stopChars, readFrom_tag (fun h => (hmem h).1 rfl) (fun h => (hmem h).2 rfl) hafter htag,
    takeTag?, if_pos hname.symm, hclose]
  rfl

/-- The text of an element at any level is read as the element, whatever text follows. -/
def IsRead (x : Xml) : Prop :=
  ∀ (level : Nat) (after : List Char) (parent : OpenTag) (outer : List OpenTag), '<' ∉ after →
    readFrom (parent :: outer) (x.charsAt level ++ after) =
      some ((parent.addChildren [x]).addText (resolve after) :: outer)

theorem head?_charsAt (x : Xml) (level : Nat) (after : List Char) :
    (x.charsAt level ++ after).head? = some '<' := by
  obtain ⟨name, attributes, text, children⟩ := x
  cases text <;> cases children <;>
    simp [charsAt, piecesAt, charsOf_cons, String.toList_append]

/-- Elements on lines of their own are read one by one, with white space around them. -/
theorem readFrom_children {first : Xml} {rest : List Xml} (h : ∀ c ∈ first :: rest, c.IsRead)
    (level outerLevel : Nat) (o : OpenTag) (outer : List OpenTag) :
    ∃ blank, allBlank blank = true ∧
      readFrom (o :: outer)
          (first.charsAt level ++ (lineChars level rest ++ newLineChars outerLevel)) =
        some ((o.addChildren (first :: rest)).addText blank :: outer) := by
  induction rest generalizing first o with
  | nil =>
    refine ⟨newLineChars outerLevel, List.all_eq_true.2 (isBlank_newLineChars _), ?_⟩
    have hafter : '<' ∉ newLineChars outerLevel := not_mem_newLineChars (by decide) _
    have hread := h first List.mem_cons_self level _ o outer hafter
    rwa [resolve_newLineChars] at hread
  | cons next more ih =>
    obtain ⟨hfirst, hrest⟩ := List.forall_mem_cons.1 h
    have hafter : '<' ∉ newLineChars level := not_mem_newLineChars (by decide) _
    obtain ⟨blank, hblank, hmore⟩ := ih hrest ((o.addChildren [first]).addText (newLineChars level))
    refine ⟨newLineChars level ++ blank, ?_, ?_⟩
    · rw [allBlank, List.all_append, Bool.and_eq_true]
      exact ⟨List.all_eq_true.2 (isBlank_newLineChars _), hblank⟩
    · have hchars : first.charsAt level ++
          (lineChars level (next :: more) ++ newLineChars outerLevel) =
          (first.charsAt level ++ newLineChars level) ++
            (next.charsAt level ++ (lineChars level more ++ newLineChars outerLevel)) := by
        rw [lineChars_cons]
        simp
      have hread := hfirst level _ o outer hafter
      rw [resolve_newLineChars] at hread
      rw [hchars, readFrom_append hread (head?_charsAt next level _), hmore]
      simp [OpenTag.addChildren, OpenTag.addText]

theorem IsPlain.isRead_whole {x : Xml} (hx : x.IsPlain) (htext : x.text = none)
    (hchildren : x.children = []) : x.IsRead := by
  intro level after parent outer hafter
  rw [charsAt_whole htext hchildren, hx.readFrom_markup hafter true]
  obtain ⟨name, attributes, text, children⟩ := x
  obtain rfl : text = none := htext
  obtain rfl : children = [] := hchildren
  rfl

theorem IsPlain.isRead_text {x : Xml} {text : String} (hx : x.IsPlain) (htext : x.text = some text)
    (hchildren : x.children = []) : x.IsRead := by
  intro level after parent outer hafter
  have hescaped : '<' ∉ (escapeText text).toList := fun hmem => (not_mem_escapeText hmem).1 rfl
  have hstart := hx.readFrom_markup hescaped false (parent :: outer)
  rw [resolve_escapeText] at hstart
  rw [charsAt_text htext hchildren, readFrom_append hstart rfl]
  refine hx.readFrom_stopChars hafter rfl ?_ parent outer
  obtain ⟨name, attributes, _, children⟩ := x
  obtain rfl : _ = some text := htext
  obtain rfl : children = [] := hchildren
  simp [OpenTag.close?, OpenTag.addText]

/-- The white space around its elements is not a text of an element. -/
theorem IsPlain.isRead_children {x first : Xml} {rest : List Xml} (hx : x.IsPlain)
    (hchildren : x.children = first :: rest) (h : ∀ c ∈ first :: rest, c.IsRead) : x.IsRead := by
  intro level after parent outer hafter
  have htext : x.text = none := hx.text.resolve_right (by simp [hchildren])
  have hline : '<' ∉ newLineChars (level + 1) := not_mem_newLineChars (by decide) _
  have hstart := hx.readFrom_markup hline false (parent :: outer)
  rw [resolve_newLineChars] at hstart
  obtain ⟨blank, hblank, hread⟩ := readFrom_children h (level + 1) level
    (OpenTag.addText { name := x.name, attributes := x.attributes } (newLineChars (level + 1)))
    (parent :: outer)
  have hinside : (first.charsAt (level + 1) ++
      (lineChars (level + 1) rest ++ newLineChars level) ++ x.stopChars after).head? =
        some '<' := by
    rw [List.append_assoc]
    exact head?_charsAt first _ _
  rw [charsAt_children htext hchildren, readFrom_append hstart hinside]
  refine (readFrom_append hread rfl).trans (hx.readFrom_stopChars hafter rfl ?_ parent outer)
  have hall : allBlank (newLineChars (level + 1) ++ blank) = true := by
    rw [allBlank, List.all_append, Bool.and_eq_true]
    exact ⟨List.all_eq_true.2 (isBlank_newLineChars _), hblank⟩
  obtain ⟨name, attributes, text, children⟩ := x
  obtain rfl : text = none := htext
  obtain rfl : children = first :: rest := hchildren
  simp [OpenTag.close?, OpenTag.addText, OpenTag.addChildren, hall]

/-- An element is read if it and all below it are plain. -/
theorem isRead {x : Xml} (h : ∀ y ∈ x.elements, y.IsPlain) : x.IsRead := by
  induction x using Xml.induction with
  | step x ih =>
    rw [elements_eq] at h
    obtain ⟨hx, hbelow⟩ := List.forall_mem_cons.1 h
    have hread : ∀ c ∈ x.children, c.IsRead := fun c hc =>
      ih c hc fun y hy => hbelow y (List.mem_flatMap.2 ⟨c, hc, hy⟩)
    cases hchildren : x.children with
    | nil =>
      cases htext : x.text with
      | none => exact hx.isRead_whole htext hchildren
      | some text => exact hx.isRead_text htext hchildren
    | cons first rest => exact hx.isRead_children hchildren (hchildren ▸ hread)

/-- What stands between the signs of the declaration. -/
def declarationChars : List Char := '?' :: "xml version=\"1.0\" encoding=\"UTF-8\"?".toList

theorem toList_render (root : Xml) :
    root.render.toList =
      ('<' :: (declarationChars ++ '>' :: newLineChars 0)) ++ (root.charsAt 0 ++ ['\n']) := by
  unfold render
  simp [toList_newLine, String.toList_join, declarationChars, charsAt, charsOf]

/-- A tree of plain elements is read from its document. -/
theorem read?_render {root : Xml} (h : ∀ x ∈ root.elements, x.IsPlain) :
    read? root.render = some root := by
  have hline : '<' ∉ newLineChars 0 := not_mem_newLineChars (by decide) _
  have htag : readTag? declarationChars = some .declaration := by rw [declarationChars, readTag?]
  have hopen : '<' ∉ declarationChars := by simp [declarationChars]
  have hclose : '>' ∉ declarationChars := by simp [declarationChars]
  have hstart : readFrom [{ name := "" }] ('<' :: (declarationChars ++ '>' :: newLineChars 0)) =
      some [{ name := "", text := newLineChars 0 }] := by
    rw [readFrom_tag hopen hclose hline htag, resolve_newLineChars, takeTag?]
    simp [OpenTag.addText]
  have hread := isRead h 0 ['\n'] { name := "", text := newLineChars 0 } [] (by decide)
  have hresolve : resolve ['\n'] = ['\n'] := resolve_of_not_mem (by decide)
  have hblank : allBlank (newLineChars 0 ++ ['\n']) = true := by decide
  have hclosed : (OpenTag.addText (.addChildren { name := "", text := newLineChars 0 } [root])
      ['\n']).close? = some { name := "", children := [root] } := by
    simp [OpenTag.close?, OpenTag.addText, OpenTag.addChildren, hblank]
  rw [hresolve] at hread
  rw [read?, toList_render, readFrom_append hstart (head?_charsAt root 0 _), hread]
  simp only [Option.bind_eq_bind, Option.bind_some, hclosed]
  rfl

end RegisterMap.Xml
