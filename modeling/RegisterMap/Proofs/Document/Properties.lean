import Mathlib.Tactic.Common
import RegisterMap.Model.Property

/-!
Tables of properties. However one was made, its keys ascend, and so it is the table that is
made of its entries in their order.
-/

namespace RegisterMap

namespace Properties

/-- Keys ascend. -/
def IsSorted (entries : List (String × PropertyValue)) : Prop :=
  entries.Pairwise fun entry later => compare entry.1 later.1 = .lt

theorem mem_insertEntry {key : String} {value : PropertyValue}
    {entries : List (String × PropertyValue)} {entry : String × PropertyValue}
    (h : entry ∈ insertEntry key value entries) : entry = (key, value) ∨ entry ∈ entries := by
  induction entries with
  | nil => simpa [insertEntry] using h
  | cons first rest ih =>
    unfold insertEntry at h
    split at h
    · exact List.mem_cons.1 h
    · rcases List.mem_cons.1 h with h | h
      · exact Or.inl h
      · exact Or.inr (List.mem_cons_of_mem _ h)
    · rcases List.mem_cons.1 h with rfl | h
      · exact Or.inr List.mem_cons_self
      · exact (ih h).imp id (List.mem_cons_of_mem _)

theorem isSorted_insertEntry (key : String) (value : PropertyValue)
    {entries : List (String × PropertyValue)} (h : IsSorted entries) :
    IsSorted (insertEntry key value entries) := by
  induction entries with
  | nil => exact List.pairwise_singleton _ _
  | cons first rest ih =>
    obtain ⟨hfirst, hrest⟩ := List.pairwise_cons.1 h
    unfold insertEntry
    split
    · next hlt =>
      refine List.pairwise_cons.2 ⟨fun entry hentry => ?_, h⟩
      rcases List.mem_cons.1 hentry with rfl | hentry
      · exact hlt
      · exact Std.TransCmp.lt_trans hlt (hfirst entry hentry)
    · next heq =>
      refine List.pairwise_cons.2 ⟨fun entry hentry => ?_, hrest⟩
      rw [Std.LawfulEqCmp.eq_of_compare heq]
      exact hfirst entry hentry
    · next hgt =>
      refine List.pairwise_cons.2 ⟨fun entry hentry => ?_, ih hrest⟩
      rcases mem_insertEntry hentry with rfl | hentry
      · exact Std.OrientedCmp.lt_of_gt hgt
      · exact hfirst entry hentry

theorem insertEntry_of_last {key : String} (value : PropertyValue)
    {entries : List (String × PropertyValue)}
    (h : ∀ entry ∈ entries, compare entry.1 key = .lt) :
    insertEntry key value entries = entries ++ [(key, value)] := by
  induction entries with
  | nil => rfl
  | cons first rest ih =>
    have hgt : compare key first.1 = .gt :=
      Std.OrientedCmp.gt_of_lt (h first List.mem_cons_self)
    rw [insertEntry, hgt, List.cons_append, ← ih fun entry hentry =>
      h entry (List.mem_cons_of_mem first hentry)]

theorem foldl_set_of_isSorted {front back : List (String × PropertyValue)}
    (h : IsSorted (front ++ back)) :
    back.foldl (fun p entry => p.set entry.1 entry.2) ⟨front⟩ = (⟨front ++ back⟩ : Properties) := by
  induction back generalizing front with
  | nil => simp
  | cons entry rest ih =>
    have hlast : ∀ other ∈ front, compare other.1 entry.1 = .lt := fun other hother =>
      (List.pairwise_append.1 h).2.2 other hother entry List.mem_cons_self
    rw [List.append_cons] at h ⊢
    rw [List.foldl_cons, set, insertEntry_of_last _ hlast, ih h]

/-- A table is made again from its own entries. -/
theorem ofList_of_isSorted {p : Properties} (h : IsSorted p.entries) : ofList p.entries = p :=
  foldl_set_of_isSorted h

theorem isSorted_ofList (entries : List (String × PropertyValue)) :
    IsSorted (ofList entries).entries := by
  have hall (p : Properties) (hp : IsSorted p.entries) :
      IsSorted (entries.foldl (fun p entry => p.set entry.1 entry.2) p).entries := by
    induction entries generalizing p with
    | nil => exact hp
    | cons entry rest ih => exact ih _ (isSorted_insertEntry _ _ hp)
  exact hall empty List.Pairwise.nil

theorem mem_of_mem_foldl_set {entries : List (String × PropertyValue)} {p : Properties}
    {entry : String × PropertyValue}
    (h : entry ∈ (entries.foldl (fun p entry => p.set entry.1 entry.2) p).entries) :
    entry ∈ p.entries ∨ entry ∈ entries := by
  induction entries generalizing p with
  | nil => exact Or.inl h
  | cons first rest ih =>
    rcases ih h with h | h
    · exact (mem_insertEntry h).elim (fun h => Or.inr (h ▸ List.mem_cons_self)) Or.inl
    · exact Or.inr (List.mem_cons_of_mem first h)

theorem mem_of_mem_ofList {entries : List (String × PropertyValue)}
    {entry : String × PropertyValue} (h : entry ∈ (ofList entries).entries) :
    entry ∈ entries :=
  (mem_of_mem_foldl_set h).resolve_left (by simp [empty])

end Properties

end RegisterMap
