import Mathlib.Tactic.Common

/-!
Texts by their bytes. A part of a text can be taken between two numbers of bytes only where
both are at the front of a character, or at the end of the text.
-/

namespace RegisterMap.Text

/-- The part of a text between two places in it. -/
def slice? (s : String) (start stop : Nat) : Option String :=
  if h : String.Pos.Raw.IsValid s ⟨start⟩ ∧ String.Pos.Raw.IsValid s ⟨stop⟩ ∧ start ≤ stop then
    some (s.slice (s.pos ⟨start⟩ h.1) (s.pos ⟨stop⟩ h.2.1) h.2.2).copy
  else none

def sliceFrom? (s : String) (start : Nat) : Option String := slice? s start s.utf8ByteSize

def sliceTo? (s : String) (stop : Nat) : Option String := slice? s 0 stop

/-- A difference that is not below zero. -/
def minus? (a b : Nat) : Option Nat := if b ≤ a then some (a - b) else none

/-- The place of the first character of a kind. -/
def find? (s : String) (c : Char) : Option Nat := (s.find? c).map fun p => p.offset.byteIdx

theorem minus?_add (a b : Nat) : minus? (a + b) b = some a := by
  rw [minus?, if_pos (Nat.le_add_left b a), Nat.add_sub_cancel]

/-- The places between characters are those where a text splits. -/
theorem slice?_eq_some_iff {s t : String} {start stop : Nat} :
    slice? s start stop = some t ↔
      ∃ front back, s = front ++ (t ++ back) ∧ front.utf8ByteSize = start ∧
        front.utf8ByteSize + t.utf8ByteSize = stop := by
  unfold slice?
  constructor
  · intro h
    split at h
    case isFalse => cases h
    case isTrue hplaces =>
      obtain ⟨front, back, hstart, hstop⟩ :=
        String.copy_slice_eq_iff_splits.1 ⟨hplaces.2.2, Option.some.inj h⟩
      have hsize := congrArg String.Pos.Raw.byteIdx hstart.offset_eq_rawEndPos
      have hsize' := congrArg String.Pos.Raw.byteIdx hstop.offset_eq_rawEndPos
      refine ⟨front, back, hstart.eq_append, hsize.symm, ?_⟩
      rw [← String.utf8ByteSize_append]
      exact hsize'.symm
  · rintro ⟨front, back, rfl, rfl, rfl⟩
    have hstart : String.Pos.Raw.IsValid (front ++ (t ++ back)) ⟨front.utf8ByteSize⟩ :=
      String.Pos.Raw.isValid_iff_exists_append.2 ⟨front, t ++ back, rfl, rfl⟩
    have hstop : String.Pos.Raw.IsValid (front ++ (t ++ back))
        ⟨front.utf8ByteSize + t.utf8ByteSize⟩ := by
      refine String.Pos.Raw.isValid_iff_exists_append.2
        ⟨front ++ t, back, (String.append_assoc ..).symm, ?_⟩
      simp [String.Pos.Raw.ext_iff]
    have hle : front.utf8ByteSize ≤ front.utf8ByteSize + t.utf8ByteSize := Nat.le_add_right _ _
    have hsplits : (String.pos _ _ hstop).Splits (front ++ t) back :=
      ⟨(String.append_assoc ..).symm, by simp [String.Pos.Raw.ext_iff]⟩
    obtain ⟨_, hslice⟩ := String.copy_slice_eq_iff_splits.2
      ⟨front, back, String.Pos.splits_append_rawEndPos, hsplits⟩
    rw [dif_pos ⟨hstart, hstop, hle⟩, Option.some_inj]
    exact hslice

theorem slice?_append (front t back : String) :
    slice? (front ++ (t ++ back)) front.utf8ByteSize (front.utf8ByteSize + t.utf8ByteSize) =
      some t :=
  slice?_eq_some_iff.2 ⟨front, back, rfl, rfl, rfl⟩

theorem sliceFrom?_append (front back : String) :
    sliceFrom? (front ++ back) front.utf8ByteSize = some back :=
  slice?_eq_some_iff.2 ⟨front, "", by simp, rfl, by simp⟩

theorem sliceTo?_append (front back : String) :
    sliceTo? (front ++ back) front.utf8ByteSize = some front :=
  slice?_eq_some_iff.2 ⟨"", back, by simp, by simp, by simp⟩

theorem find?_append {kept : String} {c : Char} (h : c ∉ kept.toList) (rest : String) :
    find? (kept ++ (String.singleton c ++ rest)) c = some kept.utf8ByteSize := by
  have hplace := String.find?_char_eq_some_iff_splits.2
    ⟨kept, rest, String.Pos.splits_append_rawEndPos (s := kept), h⟩
  rw [find?, hplace]
  rfl

theorem find?_eq_none {s : String} {c : Char} (h : c ∉ s.toList) : find? s c = none := by
  rw [find?, Option.map_eq_none_iff, Option.eq_none_iff_forall_ne_some]
  intro p hp
  obtain ⟨front, back, hsplits, _⟩ := String.find?_char_eq_some_iff_splits.1 hp
  refine h ?_
  rw [hsplits.eq_append]
  simp [String.toList_append]

theorem utf8ByteSize_ofList_cons (c : Char) (cs : List Char) :
    (String.ofList (c :: cs)).utf8ByteSize = c.utf8Size + (String.ofList cs).utf8ByteSize := by
  rw [String.ofList_cons, String.utf8ByteSize_append, String.utf8ByteSize_singleton]

theorem utf8ByteSize_ofList_append (cs ds : List Char) :
    (String.ofList (cs ++ ds)).utf8ByteSize =
      (String.ofList cs).utf8ByteSize + (String.ofList ds).utf8ByteSize := by
  rw [String.ofList_append, String.utf8ByteSize_append]

/-- Where each character takes one byte, bytes are counted like characters. -/
theorem utf8ByteSize_ofList {cs : List Char} (h : ∀ c ∈ cs, c.utf8Size = 1) :
    (String.ofList cs).utf8ByteSize = cs.length := by
  induction cs with
  | nil => rfl
  | cons c rest ih =>
    obtain ⟨hc, hrest⟩ := List.forall_mem_cons.1 h
    rw [utf8ByteSize_ofList_cons, hc, ih hrest, List.length_cons, Nat.add_comm]

theorem sliceTo?_ofList {cs : List Char} {n : Nat}
    (h : (String.ofList (cs.take n)).utf8ByteSize = n) :
    sliceTo? (String.ofList cs) n = some (String.ofList (cs.take n)) := by
  have hslice := sliceTo?_append (String.ofList (cs.take n)) (String.ofList (cs.drop n))
  rwa [h, ← String.ofList_append, List.take_append_drop] at hslice

end RegisterMap.Text
