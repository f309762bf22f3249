import Mathlib.Data.List.Nodup
import RegisterMap.Proofs.Occurrence
import RegisterMap.Proofs.RowMajor
import RegisterMap.Proofs.Text.Keyword
import RegisterMap.Proofs.Text.SplitsOff

/-!
The names of the elements of an array. The numbers of an index stand behind the name of the
array, each with a mark in front that is no digit. The elements have the rest of their names
in common, so that the index can be told from a name whatever the array is called. A macro
name changes only what they have in common: the marks and the digits can stay.
-/

namespace RegisterMap

namespace Text

/-- The numbers of an index, each behind a mark and in front of some other characters. -/
def marked (mark : Char) (back : List Char) (index : List Nat) : List Char :=
  index.flatMap fun i => mark :: ((toString i).toList ++ back)

variable {mark : Char} {back : List Char}

theorem marked_cons (mark : Char) (back : List Char) (i : Nat) (index : List Nat) :
    marked mark back (i :: index) =
      mark :: ((toString i).toList ++ (back ++ marked mark back index)) := by
  simp [marked]

/-- A number ends where the next mark stands, if no other character does so before. -/
theorem stops_marked (hmark : mark.isDigit = false) (hback : Stops Char.isDigit back)
    (index : List Nat) : Stops Char.isDigit (back ++ marked mark back index) := by
  cases back with
  | nil =>
    cases index with
    | nil => simp [Stops, marked]
    | cons i rest =>
      rw [List.nil_append, marked_cons]
      exact stops_cons hmark _
  | cons c rest => exact stops_cons (hback c rfl) _

theorem marked_injective (hmark : mark.isDigit = false) (hback : Stops Char.isDigit back) :
    Function.Injective (marked mark back) := by
  intro index other h
  induction index generalizing other with
  | nil =>
    cases other with
    | nil => rfl
    | cons j rest =>
      rw [marked_cons] at h
      cases h
  | cons i index ih =>
    cases other with
    | nil =>
      rw [marked_cons] at h
      cases h
    | cons j other =>
      rw [marked_cons, marked_cons] at h
      obtain ⟨rfl, hrest⟩ := splitsOff_decimal i j _ _ (stops_marked hmark hback index)
        (stops_marked hmark hback other) (List.cons.inj h).2
      rw [ih (List.append_cancel_left hrest)]

end Text

namespace Identifier

theorem guardDigit_append {front : List Char} (hne : front ≠ []) (back : List Char) :
    guardDigit (front ++ back) = guardDigit front ++ back := by
  cases front with
  | nil => exact absurd rfl hne
  | cons first rest => cases hdigit : first.isDigit <;> simp [guardDigit, hdigit]

theorem macroChar_of_isDigit {c : Char} (h : c.isDigit = true) : macroChar c = c := by
  have hlower : c.isLower = false := by
    by_contra hnot
    have halpha : c.isAlpha = true := Bool.or_eq_true_iff.2 (Or.inr (by simpa using hnot))
    rw [isDigit_of_isAlpha halpha] at h
    cases h
  have hword : c.isAlphanum = true := Bool.or_eq_true_iff.2 (Or.inr h)
  rw [macroChar, if_pos hword, toUpper_of_not_isLower hlower]

theorem map_macroChar_marked (index : List Nat) :
    (Text.marked '_' [] index).map macroChar = Text.marked '_' [] index := by
  have hdigits (i : Nat) : (toString i).toList.map macroChar = (toString i).toList := by
    refine (List.map_congr_left fun c hc => ?_).trans (List.map_id _)
    by_contra hnot
    exact Text.not_mem_toString (Bool.eq_false_iff.2 (mt macroChar_of_isDigit hnot)) i hc
  induction index with
  | nil => rfl
  | cons i rest ih =>
    rw [Text.marked_cons, List.map_cons, List.map_append, List.map_append, ih, hdigits]
    rfl

end Identifier

namespace Element

variable {options : WalkOptions} {child : Node} {shape : ArrayShape}

theorem toList_ident (e : Element) :
    e.ident.toList = e.node.name.toList ++ Text.marked '_' [] (e.index.getD []) := by
  simp [ident, Text.marked, List.flatMap_map, String.toList_join]

theorem toList_subscripts (index : List Nat) :
    (subscripts index).toList = Text.marked '[' [']'] index := by
  simp [subscripts, Text.marked, List.flatMap_map, String.toList_join]

/-- An underscore stands before the name of the element, so it is not the name that can
start with a digit. -/
theorem toList_macroName_ident (first : String) (e : Element) :
    (Identifier.macroName [first, e.ident]).toList =
      Identifier.guardDigit (first.toList.map Identifier.macroChar ++
        '_' :: e.node.name.toList.map Identifier.macroChar) ++
          Text.marked '_' [] (e.index.getD []) := by
  rw [← Identifier.guardDigit_append (by simp)]
  simp [Identifier.macroName, Identifier.macroChars, toList_ident,
    Identifier.map_macroChar_marked]

/-- Names of the elements of an array are different if the index can be told from what stands
behind the part that they have in common. -/
theorem nodup_names (hcounted : shape.IsCounted) (harray : child.array = some shape)
    (parent : Element) {name : Element → String} {front : List Char} {mark : Char}
    {back : List Char} (hmark : mark.isDigit = false) (hback : Text.Stops Char.isDigit back)
    (hname : ∀ number, (name (nth options.unrolled parent child number)).toList =
      front ++ Text.marked mark back (shape.unravel number)) :
    ((parent.ofChild options.unrolled child).map name).Nodup := by
  cases hmet : child.isSkipped options with
  | true =>
    have hskipped : child.isSkipped options.unrolled = true := hmet
    rw [ofChild_of_skipped hskipped]
    exact List.nodup_nil
  | false =>
    have hcount : child.metCount options.unrolled = shape.count := by
      rw [metCount_unrolled hmet, Node.elementCount, harray]
      rfl
    rw [ofChild, hcount, List.map_map]
    refine List.Nodup.map_on (fun i hi j hj hij => ?_) List.nodup_range
    have htexts : front ++ Text.marked mark back (shape.unravel i) =
        front ++ Text.marked mark back (shape.unravel j) := by
      rw [← hname, ← hname]
      exact congrArg String.toList hij
    exact hcounted.unravel_injOn (List.mem_range.1 hi) (List.mem_range.1 hj)
      (Text.marked_injective hmark hback (List.append_cancel_left htexts))

/-- The elements that an unrolled walk meets an array as have names, paths and macro names of
their own, whatever the array and its parent are called. The macro names hold nothing but
upper-case letters, digits and underscores, and none of them starts with a digit. -/
theorem elements_named_apart (options : WalkOptions) (parent : Element)
    (harray : child.array = some shape) (hcounted : shape.IsCounted) :
    ((parent.ofChild options.unrolled child).map Element.ident).Nodup ∧
      ((parent.ofChild options.unrolled child).map Element.path).Nodup ∧
      ((parent.ofChild options.unrolled child).map fun e =>
        Identifier.macroName [parent.ident, e.ident]).Nodup ∧
      ∀ e ∈ parent.ofChild options.unrolled child,
        Identifier.isMacro (Identifier.macroName [parent.ident, e.ident]) = true := by
  have hindex (number : Nat) : (nth options.unrolled parent child number).index.getD [] =
      shape.unravel number := by
    rw [index_nth_unrolled, harray]
    rfl
  have hident (number : Nat) : (nth options.unrolled parent child number).ident.toList =
      child.name.toList ++ Text.marked '_' [] (shape.unravel number) := by
    rw [toList_ident, hindex, nth_node]
  have hpath (number : Nat) : (nth options.unrolled parent child number).path.toList =
      (childPath parent.path child.name).toList ++
        Text.marked '[' [']'] (shape.unravel number) := by
    rw [← toList_subscripts, ← String.toList_append]
    simp [nth, Node.metShape?, WalkOptions.unrolled, item, harray]
  have hmacro (number : Nat) : (Identifier.macroName
      [parent.ident, (nth options.unrolled parent child number).ident]).toList =
        Identifier.guardDigit (parent.ident.toList.map Identifier.macroChar ++
          '_' :: child.name.toList.map Identifier.macroChar) ++
            Text.marked '_' [] (shape.unravel number) := by
    rw [toList_macroName_ident, hindex, nth_node]
  have hunderscore : '_'.isDigit = false := by decide
  have hbracket : '['.isDigit = false := by decide
  have hend : Text.Stops Char.isDigit [] := by simp [Text.Stops]
  have hclose : Text.Stops Char.isDigit [']'] := Text.stops_cons (by decide) []
  exact ⟨nodup_names hcounted harray parent hunderscore hend hident,
    nodup_names hcounted harray parent hbracket hclose hpath,
    nodup_names hcounted harray parent hunderscore hend hmacro,
    fun e _ => Identifier.isMacro_macroName parent.ident e.ident []⟩

/-- An array whose own name ends like an index, in an element of an array whose name starts
with a digit. -/
def crowdedGrid : Node := { Node.reg "é_1" with array := some ⟨[12, 11], 4⟩ }

def crowdedParent : Element :=
  (Element.top (Node.addrmap "chip")).item { Node.regfile "2nd.Bank" with
    array := some ⟨[2, 3], 528⟩ } ⟨[2, 3], 528⟩ 3

theorem elements_named_apart_of_crowdedGrid :
    crowdedGrid.array = some ⟨[12, 11], 4⟩ ∧ (ArrayShape.mk [12, 11] 4).IsCounted ∧
      (crowdedParent.nth { unroll := true } crowdedGrid 21).path =
        "chip.2nd.Bank[1][0].é_1[1][10]" ∧
      Identifier.macroName [crowdedParent.ident,
        (crowdedParent.nth { unroll := true } crowdedGrid 21).ident] =
          "_2ND_BANK_1_0___1_1_10" ∧
      Identifier.macroName [crowdedParent.ident,
        (crowdedParent.nth { unroll := true } crowdedGrid 121).ident] =
          "_2ND_BANK_1_0___1_11_0" ∧
      (crowdedParent.ofChild { unroll := true } crowdedGrid).length = 132 ∧
      ((crowdedParent.ofChild { unroll := true } crowdedGrid).map fun e =>
        Identifier.macroName [crowdedParent.ident, e.ident]).Nodup := by
  have harray : crowdedGrid.array = some ⟨[12, 11], 4⟩ := rfl
  have hcounted : (ArrayShape.mk [12, 11] 4).IsCounted := ⟨by decide, by decide⟩
  obtain ⟨_, _, hmacro, _⟩ := elements_named_apart {} crowdedParent harray hcounted
  exact ⟨harray, hcounted, by decide +kernel, by decide +kernel, by decide +kernel,
    by decide +kernel, hmacro⟩

end Element

end RegisterMap
