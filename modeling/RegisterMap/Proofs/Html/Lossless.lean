import RegisterMap.Html.Script
import RegisterMap.Proofs.Text.SplitsOff

/-!
The script with the index loses nothing. The text of a literal splits off from what may
follow it in a script, so that different literals have different texts, and different
indexes and titles different scripts.
-/

namespace RegisterMap.Html

open Text (SplitsOff joinWith)
open Json (charsOf charsOf_append charsOf_cons)

namespace Literal

/-- What holds of a literal if it holds of all items, or of the values of all members. -/
theorem induction {P : Literal → Prop} (null : P .null) (number : ∀ n, P (.number n))
    (big : ∀ n, P (.big n)) (text : ∀ s, P (.text s))
    (array : ∀ items, (∀ item ∈ items, P item) → P (.array items))
    (object : ∀ members, (∀ member ∈ members, P member.2) → P (.object members)) (l : Literal) :
    P l :=
  @Literal.rec P (fun items => ∀ item ∈ items, P item)
    (fun members => ∀ member ∈ members, P member.2) (fun member => P member.2) null number big text
    array object (fun _ h => by cases h)
    (fun _ _ hfirst hrest => List.forall_mem_cons.2 ⟨hfirst, hrest⟩) (fun _ h => by cases h)
    (fun _ _ hfirst hrest => List.forall_mem_cons.2 ⟨hfirst, hrest⟩) (fun _ _ h => h) l

/-- The characters of a literal. -/
def chars (l : Literal) : List Char := charsOf l.pieces

/-- The characters of a member of an object. -/
def memberChars (member : String × Literal) : List Char :=
  (Json.quote member.1).toList ++ ':' :: member.2.chars

theorem toList_render (l : Literal) : l.render.toList = l.chars := by
  rw [render, String.toList_join, chars, charsOf]

theorem charsOf_itemPieces (items : List Literal) :
    charsOf (itemPieces items) = joinWith ',' (items.map chars) := by
  induction items with
  | nil => rfl
  | cons item rest ih =>
    cases rest with
    | nil => rfl
    | cons next more =>
      rw [itemPieces, charsOf_append, charsOf_cons, ih]
      rfl

theorem charsOf_memberPieces (members : List (String × Literal)) :
    charsOf (memberPieces members) = joinWith ',' (members.map memberChars) := by
  induction members with
  | nil => rfl
  | cons member rest ih =>
    obtain ⟨key, value⟩ := member
    cases rest with
    | nil => simp [memberPieces, charsOf_cons, joinWith, memberChars, chars]
    | cons next more =>
      rw [memberPieces, charsOf_cons, charsOf_cons, charsOf_append, charsOf_cons, ih]
      simp [joinWith, memberChars, chars]

theorem chars_number (n : Nat) : (number n).chars = (toString n).toList := by
  simp [chars, pieces, charsOf]

theorem chars_big (n : Nat) : (big n).chars = '0' :: 'x' :: (Text.hexDigits n ++ ['n']) := by
  simp [chars, pieces, charsOf, Text.hex]

theorem chars_text (s : String) : (text s).chars = (Json.quote s).toList := by
  simp [chars, pieces, charsOf]

theorem chars_array (items : List Literal) :
    (array items).chars = '[' :: (joinWith ',' (items.map chars) ++ [']']) := by
  rw [chars, pieces, charsOf_cons, charsOf_append, charsOf_itemPieces]
  rfl

theorem chars_object (members : List (String × Literal)) :
    (object members).chars = '\x7b' :: (joinWith ',' (members.map memberChars) ++ ['\x7d']) := by
  rw [chars, pieces, charsOf_cons, charsOf_append, charsOf_memberPieces]
  rfl

/-- The character that a literal starts with, a zero for any digit. -/
def lead : Literal → Char
  | null => 'n'
  | number _ | big _ => '0'
  | text _ => '"'
  | array _ => '['
  | object _ => '\x7b'

/-- A character, a zero for any digit. -/
def leadOf (c : Char) : Char := if c.isDigit then '0' else c

theorem exists_chars_cons (l : Literal) : ∃ c rest, l.chars = c :: rest ∧ leadOf c = l.lead := by
  cases l with
  | null => exact ⟨'n', ['u', 'l', 'l'], rfl, rfl⟩
  | number n =>
    obtain ⟨c, rest, hdigits⟩ := List.exists_cons_of_ne_nil (Nat.toDigits_ne_nil (n := n) (b := 10))
    have hdigit : c.isDigit = true := Nat.isDigit_of_mem_toDigits (by decide) (by decide)
      (hdigits ▸ List.mem_cons_self)
    refine ⟨c, rest, ?_, by simp [leadOf, hdigit, lead]⟩
    rw [chars_number, Nat.toString_eq_ofList_toDigits, String.toList_ofList, hdigits]
  | big n => exact ⟨'0', _, chars_big n, rfl⟩
  | text s => exact ⟨'"', _, (chars_text s).trans (String.toList_ofList), rfl⟩
  | array items => exact ⟨'[', _, chars_array items, rfl⟩
  | object members => exact ⟨'\x7b', _, chars_object members, rfl⟩

theorem lead_eq_of_append {l m : Literal} {r s : List Char} (h : l.chars ++ r = m.chars ++ s) :
    l.lead = m.lead := by
  obtain ⟨c, rest, hl, hc⟩ := l.exists_chars_cons
  obtain ⟨d, more, hm, hd⟩ := m.exists_chars_cons
  rw [hl, hm] at h
  rw [← hc, ← hd, (List.cons.inj h).1]

/-- What a number could go on with. -/
def continuesNumber (c : Char) : Bool := c.isDigit || c == 'x'

/-- A literal does not go on. -/
abbrev Ends (rest : List Char) : Prop := Text.Stops continuesNumber rest

theorem splitsOff_member {member : String × Literal} (h : SplitsOff Ends chars member.2) :
    SplitsOff Ends memberChars member := by
  intro other r s hr hs heq
  unfold memberChars at heq
  rw [List.append_assoc, List.append_assoc] at heq
  obtain ⟨hkey, hvalue⟩ := Text.splitsOff_quote member.1 other.1 _ _ trivial trivial heq
  obtain ⟨hliteral, hrest⟩ := h other.2 r s hr hs (List.cons.inj hvalue).2
  exact ⟨Prod.ext hkey hliteral, hrest⟩

theorem ends_of_continues {c : Char} (h : continuesNumber c = false) (rest : List Char) :
    Ends (c :: rest) :=
  Text.stops_cons h rest

/-- A big integer has an x where a number has a digit or ends. -/
theorem chars_number_append_ne {n m : Nat} {r s : List Char} (hr : Ends r) :
    (number n).chars ++ r ≠ (big m).chars ++ s := by
  intro h
  have hdigits : ∀ c ∈ (number n).chars, c.isDigit = true := by
    intro c hc
    rw [chars_number] at hc
    by_contra hnot
    exact Text.not_mem_toString (Bool.eq_false_iff.2 hnot) n hc
  obtain ⟨c, rest, hchars, _⟩ := (number n).exists_chars_cons
  rw [hchars] at hdigits h
  rw [chars_big, List.cons_append, List.cons_append, List.cons.injEq] at h
  have hx : (rest ++ r).head? = some 'x' := by rw [h.2]; rfl
  cases rest with
  | nil =>
    have hfalse := hr 'x' hx
    revert hfalse
    decide
  | cons d more =>
    have hdigit := hdigits d (by simp)
    obtain rfl : d = 'x' := by simpa using hx
    revert hdigit
    decide

theorem chars_big_append_cancel {n m : Nat} {r s : List Char}
    (h : (big n).chars ++ r = (big m).chars ++ s) : n = m ∧ r = s := by
  have hhex (n : Nat) : ∀ c ∈ Text.hexDigits n, (c != 'n') = true := by
    intro c hc
    refine bne_iff_ne.2 ?_
    rintro rfl
    exact Text.not_mem_hexDigits (by decide) n hc
  rw [chars_big, chars_big] at h
  simp only [List.cons_append, List.append_assoc, List.cons.injEq, true_and] at h
  obtain ⟨hdigits, hrest⟩ := Text.append_cancel_of_stops (hhex n) (hhex m)
    (Text.stops_cons (by decide) _) (Text.stops_cons (by decide) _) h
  have hvalue : some n = some m := by
    rw [← Text.ofHexDigits?_hexDigits n, hdigits, Text.ofHexDigits?_hexDigits]
  exact ⟨Option.some.inj hvalue, (List.cons.inj hrest).2⟩

/-- No literal starts with a closing bracket. -/
theorem head?_chars_append_ne (l : Literal) (rest : List Char) :
    (l.chars ++ rest).head? ≠ some ']' := by
  obtain ⟨c, more, hchars, hc⟩ := l.exists_chars_cons
  rw [hchars, List.cons_append, List.head?_cons]
  rintro ⟨⟩
  cases l <;> cases hc

theorem head?_memberChars_append_ne (member : String × Literal) (rest : List Char) :
    (memberChars member ++ rest).head? ≠ some '\x7d' := by
  simp [memberChars, Json.quote]

/-- Two literals that start in the same way are of one kind, but for the two kinds of numbers;
of one kind they are told apart by what they hold. -/
theorem splitsOff_chars (l : Literal) : SplitsOff Ends chars l := by
  induction l using Literal.induction with
  | null =>
    intro m r s _ _ h
    have hlead := lead_eq_of_append h
    cases m with
    | null => exact ⟨rfl, List.append_cancel_left h⟩
    | _ => cases hlead
  | number n =>
    intro m r s hr hs h
    have hlead := lead_eq_of_append h
    cases m with
    | number m =>
      rw [chars_number, chars_number] at h
      have hstops {rest : List Char} (hrest : Ends rest) : Text.Stops Char.isDigit rest :=
        fun c hc => (Bool.or_eq_false_iff.1 (hrest c hc)).1
      obtain ⟨rfl, hrest⟩ := Text.splitsOff_decimal n m r s (hstops hr) (hstops hs) h
      exact ⟨rfl, hrest⟩
    | big m => exact absurd h (chars_number_append_ne hr)
    | _ => cases hlead
  | big n =>
    intro m r s _ hs h
    have hlead := lead_eq_of_append h
    cases m with
    | number m => exact absurd h.symm (chars_number_append_ne hs)
    | big m =>
      obtain ⟨rfl, hrest⟩ := chars_big_append_cancel h
      exact ⟨rfl, hrest⟩
    | _ => cases hlead
  | text t =>
    intro m r s _ _ h
    have hlead := lead_eq_of_append h
    cases m with
    | text u =>
      rw [chars_text, chars_text] at h
      obtain ⟨rfl, hrest⟩ := Text.splitsOff_quote t u r s trivial trivial h
      exact ⟨rfl, hrest⟩
    | _ => cases hlead
  | array items ih =>
    intro m r s _ _ h
    have hlead := lead_eq_of_append h
    cases m with
    | array others =>
      rw [chars_array, chars_array, List.cons_append, List.cons_append, List.append_assoc,
        List.append_assoc] at h
      obtain ⟨rfl, hrest⟩ := Text.joinWith_cancel (ends_of_continues (by decide))
        (ends_of_continues (by decide)) (by decide) head?_chars_append_ne ih (List.cons.inj h).2
      exact ⟨rfl, hrest⟩
    | _ => cases hlead
  | object members ih =>
    intro m r s _ _ h
    have hlead := lead_eq_of_append h
    cases m with
    | object others =>
      rw [chars_object, chars_object, List.cons_append, List.cons_append, List.append_assoc,
        List.append_assoc] at h
      obtain ⟨rfl, hrest⟩ := Text.joinWith_cancel (ends_of_continues (by decide))
        (ends_of_continues (by decide)) (by decide) head?_memberChars_append_ne
        (fun member hmember => splitsOff_member (ih member hmember)) (List.cons.inj h).2
      exact ⟨rfl, hrest⟩
    | _ => cases hlead

theorem eq_of_render_eq {l m : Literal} (h : l.render = m.render) : l = m := by
  have hchars : l.chars ++ [] = m.chars ++ [] := by
    rw [← toList_render, ← toList_render, h]
  exact (l.splitsOff_chars m [] [] nofun nofun hchars).1

end Literal

/-! What an index says is told from its literal: optional members are there exactly if there
is something to say in them. -/

theorem IndexField.eq_of_literal_eq {f g : IndexField} (h : f.literal = g.literal) : f = g := by
  obtain ⟨name, lsb, msb, reset, access, encode⟩ := f
  obtain ⟨name', lsb', msb', reset', access', encode'⟩ := g
  obtain ⟨hfixed, hmore⟩ := List.append_inj (Literal.object.inj h) rfl
  have hencode : encode = encode' := by
    cases encode with
    | nil =>
      cases encode' with
      | nil => rfl
      | cons value rest => cases hmore
    | cons value rest =>
      cases encode' with
      | nil => cases hmore
      | cons value' rest' =>
        have hpair : ∀ v w : String × Nat, (v.1, Literal.big v.2) = (w.1, .big w.2) → v = w := by
          rintro ⟨key, n⟩ ⟨key', n'⟩ heq
          simpa using heq
        have hvalues := Literal.object.inj (Prod.mk.inj (List.cons.inj hmore).1).2
        exact (List.map_inj_right hpair).1 hvalues
  simp only [List.cons.injEq, Prod.mk.injEq, Literal.text.injEq, Literal.number.injEq,
    Literal.big.injEq, true_and, and_true] at hfixed
  obtain ⟨rfl, rfl, rfl, rfl, rfl⟩ := hfixed
  rw [hencode]

theorem map_number_inj {ns ms : List Nat} (h : ns.map Literal.number = ms.map .number) :
    ns = ms :=
  (List.map_inj_right fun _ _ => Literal.number.inj).1 h

theorem fields_eq_of_members_eq {fields fields' : Option (List IndexField)}
    (h : (match fields with
        | none => []
        | some fields => [("fields", Literal.array (fields.map IndexField.literal))]) =
      match fields' with
        | none => []
        | some fields => [("fields", .array (fields.map IndexField.literal))]) :
    fields = fields' := by
  cases fields with
  | none => cases fields' with
    | none => rfl
    | some _ => cases h
  | some fields => cases fields' with
    | none => cases h
    | some fields' =>
      have hliterals := Literal.array.inj (Prod.mk.inj (List.cons.inj h).1).2
      rw [(List.map_inj_right fun _ _ => IndexField.eq_of_literal_eq).1 hliterals]

theorem IndexEntry.eq_of_literal_eq {e f : IndexEntry} (h : e.literal = f.literal) : e = f := by
  obtain ⟨parent, children, name, offset, size, array, fields⟩ := e
  obtain ⟨parent', children', name', offset', size', array', fields'⟩ := f
  have hmembers := Literal.object.inj h
  rw [List.append_assoc, List.append_assoc] at hmembers
  obtain ⟨hfixed, hoptional⟩ := List.append_inj hmembers rfl
  simp only [List.cons.injEq, Prod.mk.injEq, Literal.text.injEq, Literal.array.injEq,
    Literal.big.injEq, true_and, and_true] at hfixed
  obtain ⟨hparent, hchildren, rfl, rfl, rfl⟩ := hfixed
  have hparents : parent = parent' := by
    cases parent with
    | none => cases parent' with
      | none => rfl
      | some q => cases hparent
    | some p => cases parent' with
      | none => cases hparent
      | some q => rw [Literal.number.inj hparent]
  have hchild : children = children' := Array.toList_inj.1 (map_number_inj hchildren)
  -- A member for dimensions is never the one for fields.
  have hall : array = array' ∧ fields = fields' := by
    cases array with
    | none => cases array' with
      | none => exact ⟨rfl, fields_eq_of_members_eq hoptional⟩
      | some _ => cases fields <;> simp at hoptional
    | some shape => cases array' with
      | none => cases fields' <;> simp at hoptional
      | some shape' =>
        obtain ⟨dimensions, stride⟩ := shape
        obtain ⟨dimensions', stride'⟩ := shape'
        obtain ⟨hshape, hrest⟩ := List.append_inj hoptional rfl
        simp only [List.cons.injEq, Prod.mk.injEq, Literal.array.injEq, Literal.big.injEq,
          true_and, and_true] at hshape
        rw [map_number_inj hshape.1, hshape.2.1]
        exact ⟨rfl, fields_eq_of_members_eq hrest⟩
  rw [hparents, hchild, hall.1, hall.2]

theorem toList_indexScript (index : List IndexEntry) (title : String) :
    (indexScript index title).toList =
      "var RALIndex = ".toList ++ ((Literal.array (index.map IndexEntry.literal)).chars ++
        ';' :: ("\nvar PageInfo = ".toList ++ ((Literal.object [("title", .text title)]).chars ++
          [';', '\n']))) := by
  have hmiddle : ";\nvar PageInfo = ".toList = ';' :: "\nvar PageInfo = ".toList := by simp
  have hlast : ";\n".toList = [';', '\n'] := by simp
  unfold indexScript
  rw [String.toList_append, String.toList_append, String.toList_append,
    String.toList_append, Literal.toList_render, Literal.toList_render, hmiddle, hlast]
  -- The fixed texts are not to be taken apart.
  generalize "var RALIndex = ".toList = front, "\nvar PageInfo = ".toList = middle
  simp only [List.append_assoc, List.cons_append]

/-- A literal is told from its text, and the index and the title from the script: every word
keeps its value, a big integer is never taken for a number, and no text in the index can end
it early. -/
theorem script_lossless :
    (∀ v w : Literal, v.render = w.render ↔ v = w) ∧
      ∀ index index' title title', indexScript index title = indexScript index' title' ↔
        index = index' ∧ title = title' := by
  refine ⟨fun v w => ⟨Literal.eq_of_render_eq, fun h => h ▸ rfl⟩,
    fun index index' title title' => ⟨fun h => ?_, fun ⟨hindex, htitle⟩ => by rw [hindex, htitle]⟩⟩
  have hends (rest : List Char) : Literal.Ends (';' :: rest) :=
    Literal.ends_of_continues (by decide) rest
  have hchars := congrArg String.toList h
  rw [toList_indexScript, toList_indexScript] at hchars
  obtain ⟨hentries, hrest⟩ :=
    Literal.splitsOff_chars _ _ _ _ (hends _) (hends _) (List.append_cancel_left hchars)
  obtain ⟨hobject, _⟩ := Literal.splitsOff_chars _ _ _ _ (hends _) (hends _)
    (List.append_cancel_left (List.cons.inj hrest).2)
  constructor
  · exact (List.map_inj_right fun _ _ => IndexEntry.eq_of_literal_eq).1 (Literal.array.inj hentries)
  · simpa using hobject

end RegisterMap.Html
