import Mathlib.Data.List.Basic
import RegisterMap.Html.Page
import RegisterMap.Proofs.Text.Number
import RegisterMap.Proofs.Text.Split

/-!
The tables of a page, read back from its markup. A table is read row by row from the cells
that have values in them, and numbers are read from their digits. What is read from the rows
of children and of fields is what they were made from, each row once and in its order.
-/

namespace RegisterMap.Html

open Markup (plain lineEnd)

variable {kind : String}

/-! Tables. -/

/-- What a table of a certain kind has in it. -/
def tableContents (kind : String) : Markup → List Markup
  | .element "table" [("class", k)] contents => if k = kind then contents else []
  | _ => []

/-- What a cell with a value has in it. -/
def cell? : Markup → Option (List Markup)
  | .element "td" [] contents => some contents
  | _ => none

/-- The cells of a row, if it is no row of labels. -/
def cells? : Markup → Option (List (List Markup))
  | .element "tr" [] cells => cells.mapM cell?
  | _ => none

/-- The rows of the tables of a certain kind, from top to bottom, each by its cells. -/
def valueRows (kind : String) (page : List Markup) : List (List (List Markup)) :=
  (page.flatMap (tableContents kind)).filterMap cells?

theorem valueRows_append (front rest : List Markup) :
    valueRows kind (front ++ rest) = valueRows kind front ++ valueRows kind rest := by
  rw [valueRows, List.flatMap_append, List.filterMap_append]
  rfl

theorem mapM_cell? (cells : List (List Markup)) :
    (cells.map (plain "td")).mapM cell? = some cells := by
  induction cells with
  | nil => rfl
  | cons cell rest ih =>
    rw [List.map_cons, List.mapM_cons, ih]
    rfl

theorem filterMap_rowOf (cells : List (List Markup)) :
    (rowOf cells).filterMap cells? = [cells] := by
  have hrow : cells? (plain "tr" (cells.map (plain "td"))) = some cells := mapM_cell? cells
  rw [rowOf, line, List.filterMap_cons_some hrow]
  rfl

/-- A table of values below a row of labels. -/
theorem valueRows_table {α : Type} {labels : List Markup} (hlabels : labels.filterMap cells? = [])
    (items : List α) (cells : α → List (List Markup)) :
    valueRows kind (table kind (labels ++ items.flatMap fun item => rowOf (cells item))) =
      items.map cells := by
  have hcontents (contents : List Markup) :
      (table kind contents).flatMap (tableContents kind) = lineEnd :: contents := by
    simp [table, line, tableContents, lineEnd]
  rw [valueRows, hcontents, List.filterMap_cons_none rfl, List.filterMap_append, hlabels,
    List.nil_append, List.filterMap_flatMap, List.map_eq_flatMap]
  exact List.flatMap_congr fun item _ => filterMap_rowOf (cells item)

theorem valueRows_table_of_ne {other : String} (h : other ≠ kind) (contents : List Markup) :
    valueRows kind (table other contents) = [] := by
  simp [valueRows, table, line, tableContents, lineEnd, h]

theorem valueRows_heading (e : Element) : valueRows kind (heading e) = [] := by
  unfold heading
  cases e.node.displayName? <;> rfl

theorem valueRows_description (desc : Option String) : valueRows kind (description desc) = [] := by
  cases desc <;> rfl

/-- The front of a page, up to its own tables. -/
theorem valueRows_front (h : "props" ≠ kind) (e : Element) (size : Nat) (desc : Option String)
    (title : String) : valueRows kind (heading e ++ summary e size ++ description desc ++
      line (plain "h2" [.text title])) = [] := by
  rw [valueRows_append, valueRows_append, valueRows_append, valueRows_heading, summary,
    valueRows_table_of_ne h, valueRows_description]
  rfl

/-! The children of a container. -/

/-- A child as a row shows it: the number that it links to, and what stands in the cells. -/
structure ShownChild where
  id : Nat
  offset : Nat
  ident : String
  displayName : String
deriving DecidableEq

def ChildRow.shown (r : ChildRow) : ShownChild :=
  ⟨r.id, r.offset, r.ident, r.displayName.getD ""⟩

/-- The numbers of a text such as `[7:4]` or `[3]`. -/
def numbersOf (bits : String) : List Nat :=
  (Text.splitAt ':' (bits.toList.filter fun c => c != '[' && c != ']')).map fun digits =>
    Text.ofDecimal (String.ofList digits)

/-- The highest and the lowest place that such a text gives. -/
def placesOf (bits : String) : Nat × Nat :=
  ((numbersOf bits).headD 0, (numbersOf bits).getLastD 0)

theorem filter_toString (n : Nat) :
    (toString n).toList.filter (fun c => c != '[' && c != ']') = (toString n).toList := by
  refine List.filter_eq_self.2 fun c hc => ?_
  have hdigit := Text.isDigit_of_mem_toString n c hc
  have hopen : c ≠ '[' := fun h => by simp [h] at hdigit
  have hclose : c ≠ ']' := fun h => by simp [h] at hdigit
  simp [hopen, hclose]

theorem numbersOf_bits (f : FieldRow) :
    numbersOf f.bits = if f.lsb = f.msb then [f.lsb] else [f.msb, f.lsb] := by
  have hsplit (n : Nat) : Text.splitAt ':' (toString n).toList = [(toString n).toList] :=
    Text.splitAt_of_not_mem (Text.not_mem_toString (by decide) n)
  have hdecimal (n : Nat) : Text.ofDecimal (String.ofList (toString n).toList) = n := by
    rw [String.ofList_toList, Text.ofDecimal_toString]
  have hopen : "[".toList.filter (fun c => c != '[' && c != ']') = [] := by decide
  have hcolon : ":".toList.filter (fun c => c != '[' && c != ']') = [':'] := by decide
  have hclose : "]".toList.filter (fun c => c != '[' && c != ']') = [] := by decide
  unfold FieldRow.bits numbersOf
  split
  case isTrue =>
    rw [String.toList_append, String.toList_append, List.filter_append, List.filter_append,
      filter_toString, hopen, hclose, List.nil_append, List.append_nil, hsplit,
      List.map_singleton, hdecimal]
  case isFalse =>
    simp only [String.toList_append, List.filter_append, filter_toString, hopen, hcolon, hclose,
      List.nil_append, List.append_nil]
    rw [List.append_assoc, List.singleton_append, Text.splitAt_append_sep, hsplit, hsplit,
      List.map_append, List.map_singleton, List.map_singleton, hdecimal, hdecimal]
    rfl

theorem placesOf_bits (f : FieldRow) : placesOf f.bits = (f.msb, f.lsb) := by
  rw [placesOf, numbersOf_bits]
  split
  case isTrue heq => exact Prod.ext heq rfl
  case isFalse => rfl

/-- A field as a row shows it. -/
structure ShownField where
  name : String
  msb : Nat
  lsb : Nat
  access : String
  reset : Option Nat
  displayName : String
deriving DecidableEq

def shownField? : List (List Markup) → Option ShownField
  | [[.text bits], [.text name], [.text access], [.text reset], [.text displayName]] =>
    some ⟨name, (placesOf bits).1, (placesOf bits).2, access, Text.ofHex? reset, displayName⟩
  | _ => none

/-- The fields that a page shows. -/
def shownFields (page : List Markup) : List ShownField :=
  (valueRows "fields" page).filterMap shownField?

def FieldRow.shown (f : FieldRow) : ShownField :=
  ⟨f.name, f.msb, f.lsb, f.access, f.reset, f.displayName.getD ""⟩

theorem ofHex?_resetText (f : FieldRow) : Text.ofHex? f.resetText = f.reset := by
  unfold FieldRow.resetText
  cases f.reset with
  | none =>
    have hdash : Text.ofHex? "-" = none := by decide
    exact hdash
  | some value => exact Text.ofHex?_hexPadded _ value

/-- The sections below have tables of their own, but none of this kind. -/
theorem valueRows_details (h : "encode" ≠ kind) (f : FieldRow) : valueRows kind f.details = [] := by
  unfold FieldRow.details
  split
  · rfl
  · rw [valueRows_append, valueRows_append]
    cases f.desc <;> cases f.encode <;> simp only [List.isEmpty_nil, List.isEmpty_cons,
      Bool.false_eq_true, if_true, if_false, valueRows_table_of_ne h] <;> rfl

theorem shownFields_registerPage (e : Element) (size : Nat) (desc : Option String)
    (fields : List FieldRow) :
    shownFields (registerPage e size desc fields) = fields.map FieldRow.shown := by
  have hrow (f : FieldRow) : shownField? ([f.bits, f.name, f.access, f.resetText,
      f.displayName.getD ""].map fun cell => [.text cell]) = some f.shown := by
    simp only [List.map_cons, List.map_nil, shownField?, placesOf_bits, ofHex?_resetText,
      FieldRow.shown]
  have hdetails : valueRows "fields" (fields.flatMap FieldRow.details) = [] := by
    induction fields with
    | nil => rfl
    | cons f rest ih =>
      rw [List.flatMap_cons, valueRows_append, valueRows_details (by decide), ih, List.nil_append]
  rw [shownFields, registerPage, valueRows_append, hdetails, valueRows_append,
    valueRows_front (by decide), List.nil_append, List.append_nil]
  unfold FieldRow.row
  rw [valueRows_table rfl, List.filterMap_map]
  exact List.filterMap_eq_map_iff_forall_eq_some.2 fun f _ => hrow f

end RegisterMap.Html
