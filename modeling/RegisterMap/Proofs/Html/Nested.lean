import Mathlib.Data.List.Forall2
import Mathlib.Tactic.Common
import RegisterMap.Html.Page

/-!
Markup as a text. The tags of a text are nested when each is closed behind what is inside
it, apart from those of void elements. What comes from a design is put in without any of the
marks that tags are made with, so that two fragments that differ in such texts only have
the same marks, and tags that are nested in both.
-/

namespace RegisterMap.Html

/-- The characters that tags and the values in them begin and end with. -/
def isMark (c : Char) : Bool := c == '<' || c == '>' || c == '"' || c == '\''

/-- The marks of a text, in their order. -/
def marks (text : String) : List Char := text.toList.filter isMark

/-- No character is a mark. -/
def IsPlain (cs : List Char) : Prop := ∀ c ∈ cs, isMark c = false

/-- Whether elements and attributes may be called so. -/
def isName (name : String) : Bool :=
  !name.toList.isEmpty && name.toList.all fun c => c.isAlphanum || c == '-'

/-- The attributes in a tag, each with a value in quotes. -/
inductive IsAttributes : List Char → Prop
  | nil : IsAttributes []
  | cons {key : String} {value rest : List Char} (name : isName key = true)
      (plain : IsPlain value) (more : IsAttributes rest) :
      IsAttributes (' ' :: (key.toList ++ '=' :: '"' :: (value ++ '"' :: rest)))

/-- A text whose tags are nested and closed, apart from those of void elements. -/
inductive IsNested (voids : List String) : List Char → Prop
  | nil : IsNested voids []
  | char {c : Char} {rest : List Char} (plain : isMark c = false) (more : IsNested voids rest) :
      IsNested voids (c :: rest)
  | element {name : String} {attributes contents rest : List Char} (legal : isName name = true)
      (closed : name ∉ voids) (attribution : IsAttributes attributes)
      (inside : IsNested voids contents) (more : IsNested voids rest) :
      IsNested voids ('<' :: (name.toList ++ (attributes ++ '>' ::
        (contents ++ '<' :: '/' :: (name.toList ++ '>' :: rest)))))
  | void {name : String} {attributes rest : List Char} (legal : isName name = true)
      (unclosed : name ∈ voids) (attribution : IsAttributes attributes)
      (more : IsNested voids rest) :
      IsNested voids ('<' :: (name.toList ++ (attributes ++ '>' :: rest)))

namespace IsNested

variable {voids : List String} {cs ds : List Char}

theorem append (h : IsNested voids cs) (h' : IsNested voids ds) : IsNested voids (cs ++ ds) := by
  induction h with
  | nil => exact h'
  | char plain _ ih => exact .char plain ih
  | element legal closed attribution inside _ _ ih =>
    simpa using IsNested.element legal closed attribution inside ih
  | void legal unclosed attribution _ ih =>
    simpa using IsNested.void legal unclosed attribution ih

theorem of_isPlain (h : IsPlain cs) : IsNested voids cs := by
  induction cs with
  | nil => exact .nil
  | cons c rest ih =>
    exact .char (h c List.mem_cons_self) (ih fun d hd => h d (List.mem_cons_of_mem c hd))

end IsNested

/-! Texts of a design. -/

theorem isPlain_escapeChar (c : Char) : IsPlain (escapeChar c) := by
  unfold escapeChar
  split
  · simp [IsPlain, isMark]
  split
  · simp [IsPlain, isMark]
  split
  · simp [IsPlain, isMark]
  split
  · simp [IsPlain, isMark]
  split
  · simp [IsPlain, isMark]
  · next hless hgreater hquote hapostrophe =>
    simp [IsPlain, isMark, hless, hgreater, hquote, hapostrophe]

theorem isPlain_escape (text : String) : IsPlain (escape text).toList := by
  rw [escape, String.toList_ofList]
  intro c hc
  obtain ⟨d, _, hd⟩ := List.mem_flatMap.1 hc
  exact isPlain_escapeChar d c hd

theorem marks_append (text more : String) : marks (text ++ more) = marks text ++ marks more := by
  rw [marks, String.toList_append, List.filter_append]
  rfl

theorem marks_escape (text : String) : marks (escape text) = [] := by
  rw [marks, List.filter_eq_nil_iff]
  intro c hc
  simp [isPlain_escape text c hc]

/-! The text of markup. -/

namespace Markup

theorem allPieces_append (nodes more : List Markup) :
    allPieces (nodes ++ more) = allPieces nodes ++ allPieces more := by
  induction nodes with
  | nil => rfl
  | cons first rest ih => rw [List.cons_append, allPieces, ih, allPieces, List.append_assoc]

theorem renderAll_append (nodes more : List Markup) :
    renderAll (nodes ++ more) = renderAll nodes ++ renderAll more := by
  rw [renderAll, allPieces_append, String.join_append]
  rfl

theorem renderAll_text (s : String) : renderAll [text s] = escape s := by
  simp [renderAll, allPieces, pieces]

theorem renderAll_verbatim (s : String) : renderAll [verbatim s] = s := by
  simp [renderAll, allPieces, pieces]

theorem renderAll_element (name : String) (attributes : List (String × String))
    (contents : List Markup) :
    renderAll [element name attributes contents] =
      "<" ++ name ++ renderAttributes attributes ++ ">" ++ renderAll contents ++
        ("</" ++ name ++ ">") := by
  simp [renderAll, allPieces, pieces, String.join_append, String.append_assoc]

theorem renderAll_void (name : String) (attributes : List (String × String)) :
    renderAll [void name attributes] = "<" ++ name ++ renderAttributes attributes ++ ">" := by
  simp [renderAll, allPieces, pieces]

theorem renderAttributes_cons (first : String × String) (more : List (String × String)) :
    renderAttributes (first :: more) =
      " " ++ first.1 ++ "=\"" ++ escape first.2 ++ "\"" ++ renderAttributes more := by
  simp [renderAttributes, String.append_assoc]

theorem isAttributes_renderAttributes {attributes : List (String × String)}
    (h : ∀ key ∈ attributes.map Prod.fst, isName key = true) :
    IsAttributes (renderAttributes attributes).toList := by
  induction attributes with
  | nil => exact .nil
  | cons first more ih =>
    have hmore := ih fun key hkey => h key (List.mem_cons_of_mem _ hkey)
    rw [renderAttributes_cons]
    simpa using IsAttributes.cons (h first.1 List.mem_cons_self)
      (isPlain_escape first.2) hmore

/-- The values of attributes have no marks, but each stands in quotes. -/
theorem marks_renderAttributes (attributes : List (String × String)) :
    marks (renderAttributes attributes) =
      (attributes.map Prod.fst).flatMap fun key => marks (" " ++ key ++ "=\"") ++ marks "\"" := by
  induction attributes with
  | nil => rfl
  | cons first more ih =>
    rw [renderAttributes_cons, List.map_cons, List.flatMap_cons, marks_append, marks_append,
      marks_append, marks_escape, List.append_nil, ih]

end Markup

/-! Fragments that differ in texts. -/

/-- Two texts with the same marks, and with tags that are nested in both. -/
structure SameTags (voids : List String) (text text' : String) : Prop where
  nested : IsNested voids text.toList
  nested' : IsNested voids text'.toList
  marks_eq : marks text = marks text'

theorem SameTags.append {voids : List String} {text text' more more' : String}
    (h : SameTags voids text text') (hmore : SameTags voids more more') :
    SameTags voids (text ++ more) (text' ++ more') where
  nested := by
    rw [String.toList_append]
    exact h.nested.append hmore.nested
  nested' := by
    rw [String.toList_append]
    exact h.nested'.append hmore.nested'
  marks_eq := by rw [marks_append, marks_append, h.marks_eq, hmore.marks_eq]

/-- Markup that is alike as a text. -/
def Alike (voids : List String) (nodes nodes' : List Markup) : Prop :=
  SameTags voids (Markup.renderAll nodes) (Markup.renderAll nodes')

namespace Alike

variable {voids : List String} {nodes nodes' more more' : List Markup}

theorem nil : Alike voids [] [] := ⟨.nil, .nil, rfl⟩

theorem append (h : Alike voids nodes nodes') (hmore : Alike voids more more') :
    Alike voids (nodes ++ more) (nodes' ++ more') := by
  unfold Alike
  rw [Markup.renderAll_append, Markup.renderAll_append]
  exact SameTags.append h hmore

theorem cons {first first' : Markup} (h : Alike voids [first] [first'])
    (hmore : Alike voids more more') : Alike voids (first :: more) (first' :: more') :=
  h.append hmore

/-- Whatever a text says, it has no tags. -/
theorem text (s s' : String) : Alike voids [.text s] [.text s'] := by
  unfold Alike
  rw [Markup.renderAll_text, Markup.renderAll_text]
  exact ⟨.of_isPlain (isPlain_escape s), .of_isPlain (isPlain_escape s'),
    by rw [marks_escape, marks_escape]⟩

theorem verbatim {s s' : String} (h : SameTags voids s s') :
    Alike voids [.verbatim s] [.verbatim s'] := by
  unfold Alike
  rwa [Markup.renderAll_verbatim, Markup.renderAll_verbatim]

theorem isNested_element {name : String} {attributes : List (String × String)}
    (hname : isName name = true) (hclosed : name ∉ voids)
    (hkeys : ∀ key ∈ attributes.map Prod.fst, isName key = true)
    (h : IsNested voids (Markup.renderAll nodes).toList) :
    IsNested voids (Markup.renderAll [.element name attributes nodes]).toList := by
  rw [Markup.renderAll_element]
  simpa using IsNested.element hname hclosed (Markup.isAttributes_renderAttributes hkeys) h .nil

/-- An element whose attributes are called the same, whatever their values are. -/
theorem element {name : String} {attributes attributes' : List (String × String)}
    (keys : List String) (hkeys : attributes.map Prod.fst = keys)
    (hkeys' : attributes'.map Prod.fst = keys) (hlegal : ∀ key ∈ name :: keys, isName key = true)
    (hclosed : name ∉ voids) (h : Alike voids nodes nodes') :
    Alike voids [.element name attributes nodes] [.element name attributes' nodes'] := by
  obtain ⟨hname, hnames⟩ := List.forall_mem_cons.1 hlegal
  refine ⟨isNested_element hname hclosed (hkeys ▸ hnames) h.nested,
    isNested_element hname hclosed (hkeys' ▸ hnames) h.nested', ?_⟩
  rw [Markup.renderAll_element, Markup.renderAll_element]
  simp only [marks_append, Markup.marks_renderAttributes, hkeys, hkeys', h.marks_eq]

theorem plain {name : String} (hname : isName name = true) (hclosed : name ∉ voids)
    (h : Alike voids nodes nodes') : Alike voids [.plain name nodes] [.plain name nodes'] :=
  element [] rfl rfl (by simpa using hname) hclosed h

theorem isNested_void {name : String} {attributes : List (String × String)}
    (hname : isName name = true) (hopen : name ∈ voids)
    (hkeys : ∀ key ∈ attributes.map Prod.fst, isName key = true) :
    IsNested voids (Markup.renderAll [.void name attributes]).toList := by
  rw [Markup.renderAll_void]
  simpa using IsNested.void hname hopen (Markup.isAttributes_renderAttributes hkeys) .nil

theorem void {name : String} {attributes : List (String × String)}
    (hlegal : ∀ key ∈ name :: attributes.map Prod.fst, isName key = true) (hopen : name ∈ voids) :
    Alike voids [.void name attributes] [.void name attributes] := by
  obtain ⟨hname, hnames⟩ := List.forall_mem_cons.1 hlegal
  have hnested := isNested_void hname hopen hnames
  exact ⟨hnested, hnested, rfl⟩

theorem flatMap {α β : Type} {rows : List α} {rows' : List β} {related : α → β → Prop}
    {f : α → List Markup} {g : β → List Markup} (hrows : List.Forall₂ related rows rows')
    (h : ∀ row row', related row row' → Alike voids (f row) (g row')) :
    Alike voids (rows.flatMap f) (rows'.flatMap g) := by
  induction hrows with
  | nil => exact nil
  | cons hrow _ ih => exact (h _ _ hrow).append ih

end Alike

end RegisterMap.Html
