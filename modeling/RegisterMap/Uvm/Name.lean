import Std.Data.TreeSet

/-!
The names of classes. A class is named after its place in the map; where that
name is in use, the least number from two on that makes it free is put into it.
Among more numbered names than there are in use one is free.
-/

namespace RegisterMap.Uvm

/-- The name for a class, numbered from its second occurrence on. -/
def numberedName (base suffix : String) (n : Nat) : String :=
  if n ≤ 1 then base ++ "_" ++ suffix else base ++ "_" ++ toString n ++ "_" ++ suffix

theorem numberedName_injective (base suffix : String) {m n : Nat} (hm : 1 ≤ m) (hn : 1 ≤ n)
    (h : numberedName base suffix m = numberedName base suffix n) : m = n := by
  have hchars := congrArg String.toList h
  unfold numberedName at hchars
  split at hchars <;> split at hchars
  · omega
  · have hlength := congrArg List.length hchars
    simp at hlength
    omega
  · have hlength := congrArg List.length hchars
    simp at hlength
    omega
  · simp only [String.toList_append, List.append_assoc] at hchars
    have hrest := List.append_cancel_left (List.append_cancel_left hchars)
    simp only [← List.append_assoc] at hrest
    have hdigits := List.append_cancel_right (List.append_cancel_right hrest)
    have hvalue := congrArg (fun digits => Nat.ofDigitChars 10 digits 0) hdigits
    simpa [Nat.toString_eq_ofList_toDigits] using hvalue

/-- The first numbered name that is free, from a number on; it is the last one where
all that are tried before are in use. -/
def firstFree (names : Std.TreeSet String) (base suffix : String) :
    (tries : Nat) → (n : Nat) → String
  | 0, n => numberedName base suffix n
  | tries + 1, n =>
    let name := numberedName base suffix n
    if names.contains name then firstFree names base suffix tries (n + 1) else name

/-- The name for a new class. -/
def freeName (names : Std.TreeSet String) (base suffix : String) : String :=
  firstFree names base suffix names.size 1

/-- A name is in use only if all that were tried before it are. -/
theorem contains_of_firstFree {names : Std.TreeSet String} {base suffix : String} {tries n : Nat}
    (h : names.contains (firstFree names base suffix tries n) = true) :
    ∀ i ≤ tries, names.contains (numberedName base suffix (n + i)) = true := by
  induction tries generalizing n with
  | zero =>
    intro i hi
    rw [Nat.le_zero.1 hi]
    exact h
  | succ tries ih =>
    simp only [firstFree] at h
    split at h
    case isTrue hused =>
      intro i hi
      cases i with
      | zero => exact hused
      | succ i =>
        have hlater := ih h i (by omega)
        rwa [Nat.add_right_comm, Nat.add_assoc] at hlater
    case isFalse hfree => exact absurd h hfree

/-- Names with different numbers need as many places. -/
theorem lt_length_of_numberedName_mem (base suffix : String) {tries n : Nat} (hn : 1 ≤ n)
    {names : List String}
    (h : ∀ i ≤ tries, numberedName base suffix (n + i) ∈ names) : tries < names.length := by
  induction tries generalizing n names with
  | zero => exact List.length_pos_of_mem (h 0 (Nat.le_refl 0))
  | succ tries ih =>
    have hfirst : numberedName base suffix n ∈ names := h 0 (Nat.zero_le _)
    have hothers : ∀ i ≤ tries,
        numberedName base suffix (n + 1 + i) ∈ names.erase (numberedName base suffix n) := by
      intro i hi
      refine (List.mem_erase_of_ne ?_).2 ?_
      · intro heq
        have := numberedName_injective base suffix (by omega) hn heq
        omega
      · have hmem := h (i + 1) (by omega)
        rwa [Nat.add_comm i 1, ← Nat.add_assoc] at hmem
    have hlength := ih (by omega) hothers
    rw [List.length_erase_of_mem hfirst] at hlength
    have := List.length_pos_of_mem hfirst
    omega

theorem not_mem_freeName (names : Std.TreeSet String) (base suffix : String) :
    freeName names base suffix ∉ names := by
  intro h
  have hused := contains_of_firstFree (Std.TreeSet.contains_iff_mem.2 h)
  have hlength := lt_length_of_numberedName_mem base suffix (Nat.le_refl 1)
    (fun i hi => Std.TreeSet.mem_toList.2 (Std.TreeSet.contains_iff_mem.1 (hused i hi)))
  rw [Std.TreeSet.length_toList] at hlength
  omega

end RegisterMap.Uvm
