import RegisterMap.Proofs.Html.Nested
import RegisterMap.Proofs.Reworded

/-!
The tags of a page. What a design says goes into texts and values of attributes, so that the
pages of an element and of the same element in other words are alike, as far as their
descriptions are.
-/

namespace RegisterMap.Html

open Markup (plain lineEnd)

/-- Descriptions as markup that both are there or not, with the same tags. -/
abbrev SameDesc : Option String → Option String → Prop := Option.Rel (SameTags [])

theorem SameDesc.isNone_eq {desc desc' : Option String} (h : SameDesc desc desc') :
    desc.isNone = desc'.isNone := by
  cases h <;> rfl

theorem SameDesc.sameTags_getD {desc desc' : Option String} (h : SameDesc desc desc') :
    SameTags [] (desc.getD "") (desc'.getD "") := by
  cases h with
  | none => exact ⟨.nil, .nil, rfl⟩
  | some h => exact h

/-- Rows of fields that differ in what they say. -/
structure FieldRow.Alike (row row' : FieldRow) : Prop where
  desc : SameDesc row.desc row'.desc
  encode : List.Forall₂ (fun value value' : EncodeRow => SameDesc value.desc value'.desc)
    row.encode row'.encode

theorem FieldRow.Alike.isEmpty_eq {row row' : FieldRow} (h : row.Alike row') :
    row.encode.isEmpty = row'.encode.isEmpty := by
  have hlength := h.encode.length_eq
  rw [Bool.eq_iff_iff, List.isEmpty_iff_length_eq_zero, List.isEmpty_iff_length_eq_zero, hlength]

section Parts

variable {voids : List String}

theorem alike_line {contents contents' : Markup} (h : Alike voids [contents] [contents']) :
    Alike voids (line contents) (line contents') :=
  .cons h (.text _ _)

theorem alike_plainLine {name : String} {nodes nodes' : List Markup}
    (hname : isName name = true) (hclosed : name ∉ voids) (h : Alike voids nodes nodes') :
    Alike voids (line (plain name nodes)) (line (plain name nodes')) :=
  alike_line (.plain hname hclosed h)

theorem alike_lines {nodes nodes' : List Markup} (h : Alike voids nodes nodes') :
    Alike voids (lineEnd :: nodes) (lineEnd :: nodes') :=
  .cons (.text _ _) h

end Parts

theorem alike_headerCells (labels : List String) :
    Alike [] (headerCells labels) (headerCells labels) := by
  have hsame : List.Forall₂ (fun _ _ : String => True) labels labels :=
    List.forall₂_same.2 fun _ _ => trivial
  rw [headerCells, ← List.flatMap_pure_eq_map]
  exact .flatMap hsame fun _ _ _ => .plain (by decide) (by decide) (.text _ _)

theorem alike_rowOf {cells cells' : List (List Markup)}
    (h : List.Forall₂ (Alike []) cells cells') : Alike [] (rowOf cells) (rowOf cells') := by
  unfold rowOf
  rw [← List.flatMap_pure_eq_map, ← List.flatMap_pure_eq_map]
  exact alike_plainLine (by decide) (by decide)
    (.flatMap h fun _ _ hcell => .plain (by decide) (by decide) hcell)

theorem alike_labelled (label value value' : String) :
    Alike [] (labelled label value) (labelled label value') :=
  alike_plainLine (by decide) (by decide)
    (.cons (.plain (by decide) (by decide) (.text _ _))
      (.plain (by decide) (by decide) (.text _ _)))

theorem alike_table (kind : String) {rows rows' : List Markup} (h : Alike [] rows rows') :
    Alike [] (table kind rows) (table kind rows') :=
  alike_line (.element ["class"] rfl rfl (by decide) (by decide) (alike_lines h))

theorem alike_descriptionBox {desc desc' : String} (h : SameTags [] desc desc') :
    Alike [] (descriptionBox desc) (descriptionBox desc') :=
  alike_line (.element ["class"] rfl rfl (by decide) (by decide)
    (alike_lines (.cons (.verbatim h) (.text _ _))))

theorem alike_description {desc desc' : Option String} (h : SameDesc desc desc') :
    Alike [] (description desc) (description desc') := by
  cases h with
  | none => exact .nil
  | some h =>
    exact (alike_plainLine (by decide) (by decide) (.text _ _)).append
      (alike_descriptionBox h)

/-! Rows. -/

theorem alike_childRow (digits digits' : Nat) (row row' : ChildRow) :
    Alike [] (row.row digits) (row'.row digits') :=
  alike_rowOf (.cons (.text _ _) (.cons
    (.element ["class", "data-id", "href"] rfl rfl (by decide) (by decide) (.text _ _))
    (.cons (.text _ _) .nil)))

theorem alike_fieldRow (row row' : FieldRow) : Alike [] row.row row'.row :=
  alike_rowOf (.cons (.text _ _) (.cons (.text _ _) (.cons (.text _ _) (.cons (.text _ _)
    (.cons (.text _ _) .nil)))))

theorem alike_encodeRow {value value' : EncodeRow} (h : SameDesc value.desc value'.desc) :
    Alike [] value.row value'.row :=
  alike_rowOf (.cons (.text _ _) (.cons (.text _ _) (.cons (.verbatim h.sameTags_getD) .nil)))

theorem alike_details {row row' : FieldRow} (h : row.Alike row') :
    Alike [] row.details row'.details := by
  unfold FieldRow.details
  rw [← h.desc.isNone_eq, ← h.isEmpty_eq]
  split
  · exact .nil
  · refine .append (.append (alike_line (.element ["id"] rfl rfl (by decide) (by decide)
      (.text _ _))) ?_) ?_
    · have hdesc := h.desc
      generalize row.desc = desc, row'.desc = desc' at hdesc ⊢
      cases hdesc with
      | none => exact .nil
      | some h => exact alike_descriptionBox h
    · split
      · exact .nil
      · exact alike_table _ (.append (alike_plainLine (by decide) (by decide)
          (alike_headerCells _)) (.flatMap h.encode fun _ _ => alike_encodeRow))

/-! Pages. -/

section Pages

variable {f : String → String} {e e' : Element} {desc desc' : Option String}

theorem alike_heading (h : Element.Retold f e e') : Alike [] (heading e) (heading e') := by
  unfold heading
  rw [h.node_eq, Node.displayName?_reworded]
  cases e.node.displayName? with
  | none => exact alike_plainLine (by decide) (by decide) (.text _ _)
  | some name =>
    exact alike_plainLine (by decide) (by decide)
      (.cons (.text _ _) (.plain (by decide) (by decide) (.text _ _)))

theorem alike_summary (h : Element.Retold f e e') (size : Nat) :
    Alike [] (summary e size) (summary e' size) := by
  have harray : e'.node.array = e.node.array := by rw [h.node_eq, Node.array_reworded]
  unfold summary
  rw [harray]
  refine alike_table _ (.append ((((alike_labelled _ _ _).append (alike_labelled _ _ _)).append
    (alike_labelled _ _ _)).append (alike_labelled _ _ _) |>.append (alike_labelled _ _ _)) ?_)
  cases e.node.array with
  | none => exact .nil
  | some shape => exact (alike_labelled _ _ _).append (alike_labelled _ _ _)

theorem alike_containerPage (h : Element.Retold f e e') (size : Nat) (hdesc : SameDesc desc desc')
    {rows rows' : List ChildRow} (hrows : rows.length = rows'.length) :
    Alike [] (containerPage e size desc rows) (containerPage e' size desc' rows') := by
  have hrelated : List.Forall₂ (fun _ _ => True) rows rows' :=
    List.forall₂_iff_get.2 ⟨hrows, fun _ _ _ => trivial⟩
  exact ((((alike_heading h).append (alike_summary h size)).append
    (alike_description hdesc)).append
    (alike_plainLine (by decide) (by decide) (.text _ _))).append
    (alike_table _ (.append (alike_plainLine (by decide) (by decide) (alike_headerCells _))
      (.flatMap hrelated fun row row' _ => alike_childRow _ _ row row')))

theorem alike_registerPage (h : Element.Retold f e e') (size : Nat) (hdesc : SameDesc desc desc')
    {rows rows' : List FieldRow} (hrows : List.Forall₂ FieldRow.Alike rows rows') :
    Alike [] (registerPage e size desc rows) (registerPage e' size desc' rows') :=
  (((((alike_heading h).append (alike_summary h size)).append
    (alike_description hdesc)).append
    (alike_plainLine (by decide) (by decide) (.text _ _))).append
    (alike_table _ (.append (alike_plainLine (by decide) (by decide) (alike_headerCells _))
      (.flatMap hrows fun row row' _ => alike_fieldRow row row')))).append
    (.flatMap hrows fun _ _ => alike_details)

theorem alike_memoryPage (h : Element.Retold f e e') (size : Nat) (hdesc : SameDesc desc desc') :
    Alike [] (memoryPage e size desc) (memoryPage e' size desc') := by
  have hlabelled (label : String) (number : Option Nat) :
      Alike [] ((number.map fun n => labelled label (toString n)).getD [])
        ((number.map fun n => labelled label (toString n)).getD []) := by
    cases number with
    | none => exact .nil
    | some n => exact alike_labelled _ _ _
  unfold memoryPage
  rw [h.node_eq, Node.memEntries?_reworded, Node.memWidth?_reworded]
  exact (((alike_heading h).append (alike_summary h size)).append
    (alike_table _ ((hlabelled _ _).append (hlabelled _ _)))).append (alike_description hdesc)

end Pages

/-! The page around all others. -/

/-- The elements of the index that have no end tag. -/
def indexVoids : List String := ["meta", "link"]

/-- The document type stands in front of the page. -/
theorem renderAll_indexPage (title : String) (options : HtmlOptions) :
    Markup.renderAll (indexPage title options) =
      "<!DOCTYPE html>" ++ Markup.renderAll (indexPage title options).tail := by
  have hfirst : indexPage title options =
      [.verbatim "<!DOCTYPE html>"] ++ (indexPage title options).tail := rfl
  rw [← Markup.renderAll_verbatim "<!DOCTYPE html>", ← Markup.renderAll_append, ← hfirst]

theorem alike_indexPage (title title' : String) {options options' : HtmlOptions}
    (h : options.homeUrl.isSome = options'.homeUrl.isSome) :
    Alike indexVoids (indexPage title options).tail (indexPage title' options').tail := by
  unfold indexPage
  refine alike_lines (alike_plainLine (by decide) (by decide) (alike_lines (.append
    (alike_plainLine (by decide) (by decide) (alike_lines ?head))
    (alike_line (.element ["onload"] rfl rfl (by decide) (by decide) (alike_lines ?body))))))
  case head =>
    exact ((((alike_line (.void (by decide) (by decide))).append
      (alike_plainLine (by decide) (by decide) (.text _ _))).append
      (alike_line (.void (by decide) (by decide)))).append
      (alike_line (.element ["src"] rfl rfl (by decide) (by decide) .nil))).append
      (alike_line (.element ["src"] rfl rfl (by decide) (by decide) .nil))
  case body =>
    refine (((alike_plainLine (by decide) (by decide) (alike_lines (.append ?home
      (alike_line (.element ["class"] rfl rfl (by decide) (by decide) (.text _ _)))))).append
      (alike_line (.element ["id"] rfl rfl (by decide) (by decide) .nil))).append
      (alike_line (.element ["id"] rfl rfl (by decide) (by decide) .nil))).append
      (alike_plainLine (by decide) (by decide) (.text _ _))
    generalize options.homeUrl = url, options'.homeUrl = url' at h ⊢
    cases url with
    | none =>
      obtain rfl : url' = none := by simpa using h.symm
      exact .nil
    | some url =>
      obtain ⟨url', rfl⟩ := Option.isSome_iff_exists.1 h.symm
      exact alike_line (.element ["class", "href"] rfl rfl (by decide) (by decide) (.text _ _))

end RegisterMap.Html
