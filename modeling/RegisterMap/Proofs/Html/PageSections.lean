import RegisterMap.Proofs.Html.PageRows
import RegisterMap.Proofs.Html.Pages

/-!
The descriptions on a page, read back from its markup. The page of a register is cut at the
headings into the sections of its fields. Boxes in front of the first heading are about the
node, and those behind a heading are about the field that it names.
-/

namespace RegisterMap.Html

open Markup (plain lineEnd)

/-! The sections of the fields. -/

/-- A value of a field as a row of its section shows it. -/
structure ShownValue where
  name : String
  value : Nat
  desc : String
deriving DecidableEq

/-- The section of a field: what its heading says, and what stands below. -/
structure ShownSection where
  name : String
  msb : Nat
  lsb : Nat
  descs : List String
  values : List ShownValue
deriving DecidableEq

/-- The name in the heading of a section, and the places behind it. -/
def sectionTitle? : Markup → Option (String × Nat × Nat)
  | .element "h3" [("id", name)] [.text title] =>
    some (name, placesOf (String.ofList (title.toList.drop (name.toList.length + 1))))
  | _ => none

/-- What a description box has in it. -/
def box? : Markup → Option String
  | .element "div" [("class", "desc")] [_, .verbatim desc, _] => some desc
  | _ => none

def shownValue? : List (List Markup) → Option ShownValue
  | [[.text value], [.text name], [.verbatim desc]] =>
    (Text.ofHex? value).map fun value => ⟨name, value, desc⟩
  | _ => none

/-- What stands in front of the next section. -/
def beforeSection (page : List Markup) : List Markup :=
  page.takeWhile fun part => (sectionTitle? part).isNone

/-- The sections of a page, each of them up to the next one. -/
def shownSections : List Markup → List ShownSection
  | [] => []
  | first :: rest =>
    match sectionTitle? first with
    | none => shownSections rest
    | some (name, msb, lsb) =>
      ⟨name, msb, lsb, (beforeSection rest).filterMap box?,
        (valueRows "encode" (beforeSection rest)).filterMap shownValue?⟩ :: shownSections rest

/-- What a page shows of its node in front of all sections. -/
def shownDescs (page : List Markup) : List String := (beforeSection page).filterMap box?

def EncodeRow.shown (v : EncodeRow) : ShownValue := ⟨v.name, v.value, v.desc.getD ""⟩

def FieldRow.shownSection (f : FieldRow) : ShownSection :=
  ⟨f.name, f.msb, f.lsb, f.desc.toList, f.encode.map EncodeRow.shown⟩

/-- Whether there is more to tell about a field than its row does. -/
def FieldRow.hasMore (f : FieldRow) : Bool := !(f.desc.isNone && f.encode.isEmpty)

/-- Markup without the heading of a section. -/
def IsUntitled (page : List Markup) : Prop := ∀ part ∈ page, (sectionTitle? part).isNone = true

theorem IsUntitled.append {front rest : List Markup} (h : IsUntitled front)
    (h' : IsUntitled rest) : IsUntitled (front ++ rest) :=
  List.forall_mem_append.2 ⟨h, h'⟩

theorem isUntitled_line {part : Markup} (h : sectionTitle? part = none) :
    IsUntitled (line part) :=
  List.forall_mem_cons.2 ⟨Option.isNone_iff_eq_none.2 h, List.forall_mem_singleton.2 rfl⟩

theorem isUntitled_table (kind : String) (rows : List Markup) : IsUntitled (table kind rows) :=
  isUntitled_line rfl

theorem isUntitled_heading (e : Element) : IsUntitled (heading e) := by
  unfold heading
  cases e.node.displayName? <;> exact isUntitled_line rfl

theorem isUntitled_description (desc : Option String) : IsUntitled (description desc) := by
  cases desc with
  | none => exact fun _ h => nomatch h
  | some desc => exact (isUntitled_line rfl).append (isUntitled_line rfl)

theorem IsUntitled.beforeSection_append {front : List Markup} (h : IsUntitled front)
    (rest : List Markup) : beforeSection (front ++ rest) = front ++ beforeSection rest :=
  List.takeWhile_append_of_pos h

theorem IsUntitled.beforeSection_eq {page : List Markup} (h : IsUntitled page) :
    beforeSection page = page := by
  simpa [beforeSection] using h.beforeSection_append []

theorem IsUntitled.shownSections_append {front : List Markup} (h : IsUntitled front)
    (rest : List Markup) : shownSections (front ++ rest) = shownSections rest := by
  induction front with
  | nil => rfl
  | cons part front ih =>
    obtain ⟨hpart, hfront⟩ := List.forall_mem_cons.1 h
    rw [List.cons_append, shownSections, Option.isNone_iff_eq_none.1 hpart]
    exact ih hfront

theorem IsUntitled.shownSections_eq_nil {page : List Markup} (h : IsUntitled page) :
    shownSections page = [] := by
  simpa [shownSections] using h.shownSections_append []

/-! What stands below the heading of a section. -/

/-- The section of a field without its heading. -/
def FieldRow.body (f : FieldRow) : List Markup :=
  (match f.desc with
    | none => []
    | some desc => descriptionBox desc) ++
  (if f.encode.isEmpty then []
    else table "encode" (
      line (plain "tr" (headerCells ["Value", "Name", "Description"])) ++
      f.encode.flatMap EncodeRow.row))

theorem isUntitled_body (f : FieldRow) : IsUntitled f.body := by
  refine IsUntitled.append ?_ ?_
  · split
    · exact fun _ h => nomatch h
    · exact isUntitled_line rfl
  · split
    · exact fun _ h => nomatch h
    · exact isUntitled_table _ _

theorem boxes_body (f : FieldRow) : f.body.filterMap box? = f.desc.toList := by
  unfold FieldRow.body
  cases f.desc <;> cases f.encode <;> rfl

theorem values_body (f : FieldRow) :
    (valueRows "encode" f.body).filterMap shownValue? = f.encode.map EncodeRow.shown := by
  have hrow (v : EncodeRow) : shownValue?
      [[.text (Text.hex v.value)], [.text v.name], [.verbatim (v.desc.getD "")]] =
        some v.shown := by
    rw [shownValue?, Text.ofHex?_hex]
    rfl
  have hbox : valueRows "encode" (match f.desc with
      | none => []
      | some desc => descriptionBox desc) = [] := by
    cases f.desc <;> rfl
  rw [FieldRow.body, valueRows_append, hbox, List.nil_append]
  split
  case isTrue hnone => rw [List.isEmpty_iff.1 hnone]; rfl
  case isFalse =>
    unfold EncodeRow.row
    rw [valueRows_table rfl, List.filterMap_map]
    exact List.filterMap_eq_map_iff_forall_eq_some.2 fun v _ => hrow v

theorem details_eq (f : FieldRow) : f.details =
    if f.hasMore then
      .element "h3" [("id", f.name)] [.text (f.name ++ " " ++ f.bits)] :: lineEnd :: f.body
    else [] := by
  unfold FieldRow.details FieldRow.hasMore
  cases f.desc.isNone && f.encode.isEmpty with
  | true => rfl
  | false => exact List.append_assoc _ _ _

theorem sectionTitle?_details (f : FieldRow) :
    sectionTitle? (.element "h3" [("id", f.name)] [.text (f.name ++ " " ++ f.bits)]) =
      some (f.name, f.msb, f.lsb) := by
  have hchars : (f.name ++ " " ++ f.bits).toList = f.name.toList ++ ' ' :: f.bits.toList := by
    simp
  have hbits : String.ofList ((f.name ++ " " ++ f.bits).toList.drop (f.name.toList.length + 1)) =
      f.bits := by
    rw [hchars, ← List.drop_drop, List.drop_left, List.drop_one, List.tail_cons,
      String.ofList_toList]
  rw [sectionTitle?, hbits, placesOf_bits]

/-- A section starts with its heading, so nothing of it belongs to what is in front. -/
theorem beforeSection_details (fields : List FieldRow) :
    beforeSection (fields.flatMap FieldRow.details) = [] := by
  induction fields with
  | nil => rfl
  | cons f rest ih =>
    rw [List.flatMap_cons, details_eq]
    split
    · rw [List.cons_append, beforeSection, List.takeWhile_cons_of_neg]
      simp [sectionTitle?_details]
    · exact ih

theorem shownSections_details (fields : List FieldRow) :
    shownSections (fields.flatMap FieldRow.details) =
      (fields.filter FieldRow.hasMore).map FieldRow.shownSection := by
  induction fields with
  | nil => rfl
  | cons f rest ih =>
    rw [List.flatMap_cons, details_eq]
    cases hmore : f.hasMore with
    | false =>
      rw [List.filter_cons_of_neg (by simp [hmore])]
      exact ih
    | true =>
      have hbody : IsUntitled (lineEnd :: f.body) :=
        List.forall_mem_cons.2 ⟨rfl, isUntitled_body f⟩
      have hbefore : beforeSection (lineEnd :: f.body ++ rest.flatMap FieldRow.details) =
          lineEnd :: f.body := by
        rw [hbody.beforeSection_append, beforeSection_details, List.append_nil]
      rw [if_pos rfl, List.filter_cons_of_pos hmore, List.cons_append, shownSections,
        sectionTitle?_details]
      simp only [hbefore, hbody.shownSections_append, ih, List.map_cons]
      congr 1
      have hvalues : valueRows "encode" (lineEnd :: f.body) = valueRows "encode" f.body := rfl
      rw [List.filterMap_cons_none rfl, boxes_body, hvalues, values_body]
      rfl

/-! Whole pages. -/

/-- All that stands on a page up to a table behind its description. -/
theorem isUntitled_front (e : Element) (size : Nat) (desc : Option String) (title kind : String)
    (rows : List Markup) :
    IsUntitled (heading e ++ summary e size ++ description desc ++
      line (plain "h2" [.text title]) ++ table kind rows) :=
  ((((isUntitled_heading e).append (isUntitled_table _ _)).append
    (isUntitled_description desc)).append (isUntitled_line rfl)).append (isUntitled_table _ _)

theorem boxes_heading (e : Element) : (heading e).filterMap box? = [] := by
  unfold heading
  cases e.node.displayName? <;> rfl

theorem boxes_table (kind : String) (rows : List Markup) : (table kind rows).filterMap box? = [] :=
  rfl

theorem boxes_description (desc : Option String) :
    (description desc).filterMap box? = desc.toList := by
  cases desc <;> rfl

theorem boxes_front (e : Element) (size : Nat) (desc : Option String) (title kind : String)
    (rows : List Markup) :
    (heading e ++ summary e size ++ description desc ++
      line (plain "h2" [.text title]) ++ table kind rows).filterMap box? = desc.toList := by
  have htitle : (line (plain "h2" [.text title])).filterMap box? = [] := rfl
  simp only [List.filterMap_append, boxes_heading, summary, boxes_table, boxes_description, htitle,
    List.nil_append, List.append_nil]

theorem isUntitled_memoryPage (e : Element) (size : Nat) (desc : Option String) :
    IsUntitled (memoryPage e size desc) :=
  (((isUntitled_heading e).append (isUntitled_table _ _)).append (isUntitled_table _ _)).append
    (isUntitled_description desc)

theorem boxes_memoryPage (e : Element) (size : Nat) (desc : Option String) :
    (memoryPage e size desc).filterMap box? = desc.toList := by
  simp only [memoryPage, List.filterMap_append, boxes_heading, summary, boxes_table,
    boxes_description, List.nil_append]

variable {e : Element} {size : Nat} {desc : Option String} {fields : List FieldRow}
  {children : List ChildRow}

/-- A node is described in front of all sections of its page. -/
theorem shownDescs_pageOf : shownDescs (pageOf e size desc fields children) = desc.toList := by
  unfold pageOf shownDescs
  split
  · rw [registerPage, (isUntitled_front e size desc _ _ _).beforeSection_append,
      beforeSection_details, List.append_nil, boxes_front]
  · rw [(isUntitled_memoryPage e size desc).beforeSection_eq, boxes_memoryPage]
  all_goals rw [containerPage, (isUntitled_front e size desc _ _ _).beforeSection_eq, boxes_front]

/-- Only a register's page shows fields. -/
theorem shownFields_pageOf : shownFields (pageOf e size desc fields children) =
    if e.node.kind = .reg then fields.map FieldRow.shown else [] := by
  cases hkind : e.node.kind with
  | reg =>
    simp only [pageOf, hkind, if_true]
    exact shownFields_registerPage e size desc fields
  | mem =>
    simp only [pageOf, hkind]
    rw [shownFields, memoryPage, valueRows_append, valueRows_append, valueRows_append,
      valueRows_heading, summary, valueRows_table_of_ne (by decide),
      valueRows_table_of_ne (by decide), valueRows_description]
    rfl
  | addrmap | regfile =>
    simp only [pageOf, hkind]
    rw [shownFields, containerPage, valueRows_append, valueRows_front (by decide),
      valueRows_table_of_ne (by decide)]
    rfl

/-- A register's page has the sections of those of its fields that there is more to tell
about. -/
theorem shownSections_pageOf : shownSections (pageOf e size desc fields children) =
    if e.node.kind = .reg then (fields.filter FieldRow.hasMore).map FieldRow.shownSection
    else [] := by
  cases hkind : e.node.kind with
  | reg =>
    simp only [pageOf, hkind, if_true]
    rw [registerPage, (isUntitled_front e size desc _ _ _).shownSections_append,
      shownSections_details]
  | mem =>
    simp only [pageOf, hkind]
    exact (isUntitled_memoryPage e size desc).shownSections_eq_nil
  | addrmap | regfile =>
    simp only [pageOf, hkind]
    exact (isUntitled_front e size desc _ _ _).shownSections_eq_nil

end RegisterMap.Html
