import Mathlib.Tactic.Common
import RegisterMap.Json.Basic
import RegisterMap.Word

/-!
Values that a document can hold without loss. Such a value is sound too, and how deeply it
is nested is told from its items.
-/

namespace RegisterMap.Json

/-- What holds of a value if it holds of all items, or of the values of all members. -/
theorem induction {P : Json → Prop} (null : P .null) (bool : ∀ b, P (.bool b))
    (number : ∀ n, P (.number n)) (text : ∀ s, P (.text s))
    (array : ∀ items, (∀ item ∈ items, P item) → P (.array items))
    (object : ∀ members, (∀ member ∈ members, P member.2) → P (.object members)) (j : Json) :
    P j :=
  @Json.rec P (fun items => ∀ item ∈ items, P item) (fun members => ∀ member ∈ members, P member.2)
    (fun member => P member.2) null bool number text array object (fun _ h => by cases h)
    (fun _ _ hfirst hrest => List.forall_mem_cons.2 ⟨hfirst, hrest⟩) (fun _ h => by cases h)
    (fun _ _ hfirst hrest => List.forall_mem_cons.2 ⟨hfirst, hrest⟩) (fun _ _ h => h) j

mutual

/-- All numbers are words and all texts are texts, so that nothing is lost in writing. -/
def IsExact : Json → Prop
  | .null => True
  | .bool _ => True
  | .number n => ∃ word < Word.limit, n = .natural word
  | .text s => s.isSome = true
  | .array items => ItemsExact items
  | .object members => MembersExact members

def ItemsExact : List Json → Prop
  | [] => True
  | item :: items => item.IsExact ∧ ItemsExact items

def MembersExact : List (Text × Json) → Prop
  | [] => True
  | (key, value) :: members => key.isSome = true ∧ value.IsExact ∧ MembersExact members

end

theorem itemsExact_iff {items : List Json} :
    ItemsExact items ↔ ∀ item ∈ items, item.IsExact := by
  induction items with
  | nil => simp [ItemsExact]
  | cons item rest ih => rw [ItemsExact, ih, List.forall_mem_cons]

theorem membersExact_iff {members : List (Text × Json)} :
    MembersExact members ↔
      ∀ member ∈ members, member.1.isSome = true ∧ member.2.IsExact := by
  induction members with
  | nil => simp [MembersExact]
  | cons member rest ih => rw [MembersExact, ih, List.forall_mem_cons, and_assoc]

theorem itemsSound_iff {items : List Json} :
    itemsSound items = true ↔ ∀ item ∈ items, item.isSound = true := by
  induction items with
  | nil => simp [itemsSound]
  | cons item rest ih => rw [itemsSound, Bool.and_eq_true, ih, List.forall_mem_cons]

theorem membersSound_iff {members : List (Text × Json)} :
    membersSound members = true ↔
      ∀ member ∈ members, member.1.isSome = true ∧ member.2.isSound = true := by
  induction members with
  | nil => simp [membersSound]
  | cons member rest ih =>
    rw [membersSound, Bool.and_eq_true, Bool.and_eq_true, ih, List.forall_mem_cons]

theorem isSound_of_isExact {j : Json} (h : j.IsExact) : j.isSound = true := by
  induction j using Json.induction with
  | null => rfl
  | bool b => rfl
  | number n =>
    obtain ⟨word, _, rfl⟩ := h
    rfl
  | text s => exact h
  | array items ih =>
    exact itemsSound_iff.2 fun item hitem => ih item hitem (itemsExact_iff.1 h item hitem)
  | object members ih =>
    refine membersSound_iff.2 fun member hmember => ?_
    obtain ⟨hkey, hvalue⟩ := membersExact_iff.1 h member hmember
    exact ⟨hkey, ih member hmember hvalue⟩

theorem depthOfItems_le {items : List Json} {levels : Nat} :
    depthOfItems items ≤ levels ↔ ∀ item ∈ items, item.depth ≤ levels := by
  induction items with
  | nil => simp [depthOfItems]
  | cons item rest ih => rw [depthOfItems, Nat.max_le, ih, List.forall_mem_cons]

end RegisterMap.Json
