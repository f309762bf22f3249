import Mathlib.Data.List.Nodup
import Mathlib.Tactic.Common
import RegisterMap.Document.Decode
import RegisterMap.Document.Encode
import RegisterMap.Proofs.Json.Exact

/-!
Records and their members, written and read. A reader that reads what it is given can read
what is written for it, and so can a record's reader, if it can for each member: where the
written member stands, and which others stand beside it, does not matter.
-/

namespace RegisterMap

namespace Document

theorem mapM_map_eq_some {α β : Type} {items : List α} {write : α → β} {read : β → Option α}
    (h : ∀ a ∈ items, read (write a) = some a) : (items.map write).mapM read = some items := by
  induction items with
  | nil => rfl
  | cons a rest ih =>
    rw [List.map_cons, List.mapM_cons, h a List.mem_cons_self,
      ih fun b hb => h b (List.mem_cons_of_mem a hb)]
    rfl

/-! Records. -/

theorem isExact_record {members : List (String × Json)} :
    (Json.record members).IsExact ↔ ∀ member ∈ members, member.2.IsExact := by
  rw [Json.record, Json.IsExact, Json.membersExact_iff, List.forall_mem_map]
  simp

/-- An object with some of the members of a record, in their order. -/
theorem record?_record {names : List String} {members : List (String × Json)}
    (hnames : names.Nodup) (h : (members.map Prod.fst).Sublist names) :
    record? names (.record members) = some members := by
  have hkeyed : (members.map fun member => (some member.1, member.2)).mapM
      (fun member : Json.Text × Json => member.1.map fun key => (key, member.2)) =
        some members :=
    mapM_map_eq_some fun _ _ => rfl
  have hknown : members.filter (fun member => names.contains member.1) = members :=
    List.filter_eq_self.2 fun member hmember =>
      List.contains_iff_mem.2 (h.subset (List.mem_map_of_mem hmember))
  rw [Json.record, record?, hkeyed]
  simp only [Option.bind_eq_bind, Option.bind_some, hknown]
  exact if_pos (hnames.sublist h)

/-- What is read, can be written, and is read again from what is written for it. -/
def ReadsBack {α : Type} (read : Json → Option α) (write : α → Json) : Prop :=
  ∀ j a, read j = some a → (write a).IsExact ∧ read (write a) = some a

variable {α : Type} {read : Json → Option α} {write : α → Json} {members : List (String × Json)}
  {name : String}

theorem exists_of_mem_mapM {β : Type} {read : β → Option α} {items : List β} {as : List α}
    (hread : items.mapM read = some as) {a : α} (ha : a ∈ as) :
    ∃ item ∈ items, read item = some a := by
  induction items generalizing as with
  | nil =>
    cases hread
    cases ha
  | cons item rest ih =>
    simp only [List.mapM_cons, Option.bind_eq_bind, Option.bind_eq_some_iff] at hread
    obtain ⟨first, hfirst, more, hmore, hpure⟩ := hread
    cases hpure
    rcases List.mem_cons.1 ha with rfl | ha
    · exact ⟨item, List.mem_cons_self, hfirst⟩
    · obtain ⟨other, hother, hread⟩ := ih hmore ha
      exact ⟨other, List.mem_cons_of_mem item hother, hread⟩

theorem ReadsBack.of_mapM (h : ReadsBack read write) {items : List Json} {as : List α}
    (hread : items.mapM read = some as) :
    ∀ a ∈ as, (write a).IsExact ∧ read (write a) = some a := by
  intro a ha
  obtain ⟨item, _, hitem⟩ := exists_of_mem_mapM hread ha
  exact h item a hitem

theorem ReadsBack.list {read : Nat → Json → Option α} {levels : Nat}
    (h : ∀ left < levels, ReadsBack (read left) write) :
    ReadsBack (list? read levels) fun items => .array (items.map write) := by
  intro j items hread
  cases levels with
  | zero => cases hread
  | succ left =>
    cases j with
    | array parts =>
      have hmapM : parts.mapM (read left) = some items := hread
      have hback := (h left (Nat.lt_succ_self left)).of_mapM hmapM
      exact ⟨Json.itemsExact_iff.2 (List.forall_mem_map.2 fun a ha => (hback a ha).1),
        mapM_map_eq_some fun a ha => (hback a ha).2⟩
    | _ => cases hread

/-! Members. -/

/-- A value for a name, or none, with which every record gives the same part. -/
structure Gives {β : Type} (name : String) (j : Option Json)
    (get : List (String × Json) → Option β) (b : β) : Prop where
  exact : ∀ value ∈ j, value.IsExact
  get_eq : ∀ members, members.lookup name = j → get members = some b

theorem ReadsBack.required (h : ReadsBack read write) {a : α}
    (hread : required? members name read = some a) :
    Gives name (some (write a)) (required? · name read) a := by
  obtain ⟨j, _, hj⟩ := Option.bind_eq_some_iff.1 hread
  obtain ⟨hexact, hback⟩ := h j a hj
  refine ⟨fun value hvalue => Option.some.inj hvalue ▸ hexact, fun members' hlookup => ?_⟩
  rw [required?, hlookup]
  exact hback

theorem optional?_of_lookup {j : Json} (hlookup : members.lookup name = some j)
    (hnull : j ≠ .null) : optional? members name read = (read j).map some := by
  unfold optional?
  rw [hlookup]
  cases j with
  | null => exact absurd rfl hnull
  | _ => rfl

theorem optional?_cases {o : Option α} (hread : optional? members name read = some o) :
    o = none ∨ ∃ j a, read j = some a ∧ o = some a := by
  cases hlookup : members.lookup name with
  | none =>
    rw [optional?, hlookup] at hread
    exact Or.inl (Option.some.inj hread).symm
  | some j =>
    by_cases hnull : j = .null
    · rw [optional?, hlookup, hnull] at hread
      exact Or.inl (Option.some.inj hread).symm
    · rw [optional?_of_lookup hlookup hnull] at hread
      obtain ⟨a, ha, rfl⟩ := Option.map_eq_some_iff.1 hread
      exact Or.inr ⟨j, a, ha, rfl⟩

theorem ReadsBack.optional (h : ReadsBack read write) (hnull : ∀ a, write a ≠ .null)
    {o : Option α} (hread : optional? members name read = some o) :
    Gives name (o.map write) (optional? · name read) o := by
  rcases optional?_cases hread with rfl | ⟨j, a, hj, rfl⟩
  · refine ⟨fun _ hvalue => absurd hvalue (Option.not_mem_none _), fun members' hlookup => ?_⟩
    rw [optional?, hlookup]
    rfl
  · obtain ⟨hexact, hback⟩ := h j a hj
    refine ⟨fun value hvalue => Option.some.inj hvalue ▸ hexact, fun members' hlookup => ?_⟩
    rw [optional?_of_lookup hlookup (hnull a), hback]
    rfl

theorem orDefault?_cases {default a : α}
    (hread : orDefault? members name default read = some a) :
    a = default ∨ ∃ j, read j = some a := by
  unfold orDefault? at hread
  cases hlookup : members.lookup name with
  | none =>
    rw [hlookup] at hread
    exact Or.inl (Option.some.inj hread).symm
  | some j =>
    rw [hlookup] at hread
    exact Or.inr ⟨j, hread⟩

/-- A member that is left out at most where it has its default. -/
theorem ReadsBack.orDefault (h : ReadsBack read write) {default : α} {o : Option α}
    (hdefault : o = some default → (write default).IsExact ∧ read (write default) = some default)
    (hread : orDefault? members name default read = some (o.getD default)) :
    Gives name (o.map write) (orDefault? · name default read) (o.getD default) := by
  cases o with
  | none =>
    refine ⟨fun _ hvalue => absurd hvalue (Option.not_mem_none _), fun members' hlookup => ?_⟩
    rw [orDefault?, hlookup]
    rfl
  | some a =>
    have hback : (write a).IsExact ∧ read (write a) = some a := by
      rcases orDefault?_cases hread with ha | ⟨j, hj⟩
      · obtain rfl : a = default := ha
        exact hdefault rfl
      · exact h j a hj
    refine ⟨fun value hvalue => Option.some.inj hvalue ▸ hback.1, fun members' hlookup => ?_⟩
    rw [orDefault?, hlookup]
    exact hback.2

theorem lookup_single (j : Json) (key : String) :
    [(name, j)].lookup key = if key = name then some j else none := by
  by_cases h : key = name
  · simp [h]
  · simp [List.lookup_cons, beq_eq_false_iff_ne.2 h, h]

theorem lookup_present (o : Option α) (key : String) :
    (present name write o).lookup key = if key = name then o.map write else none := by
  cases o with
  | none => simp [present]
  | some a => exact lookup_single (write a) key

theorem keys_present (o : Option α) :
    ((present name write o).map Prod.fst).Sublist [name] := by
  cases o with
  | none => exact List.nil_sublist _
  | some a => exact List.Sublist.refl _

theorem Gives.exact_present {β : Type} {o : Option α} {get : List (String × Json) → Option β}
    {b : β} (h : Gives name (o.map write) get b) :
    ∀ member ∈ present name write o, member.2.IsExact := by
  cases o with
  | none => simp [present]
  | some a => exact List.forall_mem_singleton.2 (h.exact (write a) rfl)

/-! Parts without members. -/

theorem readsBack_text : ReadsBack text? .str := by
  intro j s hread
  cases j with
  | text s' =>
    obtain rfl : s' = some s := hread
    exact ⟨rfl, rfl⟩
  | _ => cases hread

theorem numberBelow?_eq_some_iff {bound n : Nat} {j : Json} :
    numberBelow? bound j = some n ↔ j = .nat n ∧ n < bound := by
  constructor
  · intro hread
    cases j with
    | number m =>
      cases m with
      | natural m =>
        obtain ⟨hlt, hm⟩ := Option.ite_none_right_eq_some.1 hread
        obtain rfl := Option.some.inj hm
        exact ⟨rfl, hlt⟩
      | decimal negative digits exponent => cases hread
    | _ => cases hread
  · rintro ⟨rfl, hlt⟩
    exact if_pos hlt

theorem readsBack_number {bound : Nat} (hbound : bound ≤ Word.limit) :
    ReadsBack (numberBelow? bound) .nat := by
  intro j n hread
  obtain ⟨rfl, hlt⟩ := numberBelow?_eq_some_iff.1 hread
  exact ⟨⟨n, Nat.lt_of_lt_of_le hlt hbound, rfl⟩, hread⟩

theorem readsBack_word : ReadsBack word? .nat := readsBack_number (Nat.le_refl _)

theorem readsBack_narrowWord : ReadsBack narrowWord? .nat := readsBack_number (by decide)

theorem readsBack_kind (levels : Nat) : ReadsBack (kind? levels) fun kind => .str kind.word := by
  intro j kind _
  exact ⟨rfl, by cases kind <;> rfl⟩

theorem readsBack_path : ReadsBack (fun j => (text? j).map Path.mk) fun path => .str path.text := by
  intro j path hread
  exact ⟨rfl, rfl⟩

end Document

end RegisterMap
