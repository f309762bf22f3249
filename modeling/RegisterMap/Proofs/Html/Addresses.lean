import RegisterMap.Proofs.Html.Reference
import RegisterMap.Proofs.Html.RoundedIndex

/-!
The address that a page shows. The index has offsets only, taken in a walk that meets
every array as a whole. The script of a page starts at an entry, adds its offset and the
strides up to the index that it is shown at, and goes on with the parent. Each step up the
chain of parents is one step up in the walk, and an index in range is the index of exactly
one element, which lies where the sum leads to in exact numbers. The script reads dimensions
and indices as doubles, so that what it adds up is the address of that element wherever the
dimensions of the chain are folded rightly in doubles, and nowhere else.
-/

namespace RegisterMap

namespace Html

/-- What the script of a page goes through from a number on: the entry with the number, that
of its parent, and so on up to one that has no parent. There is nothing to go through where
an entry is missing, or where it would not end because a parent does not come first. -/
def chain? (index : List IndexEntry) (id : Nat) : Option (List (Nat × IndexEntry)) := do
  let entry ← index[id]?
  match entry.parent with
  | none => return [(id, entry)]
  | some p => if p < id then (chain? index p).map ((id, entry) :: ·) else none

namespace IndexEntry

/-- Where the element with an index lies, from the start of what is around it. -/
def offsetAt (entry : IndexEntry) (index : List Nat) : Nat :=
  match entry.array with
  | none => entry.offset
  | some (dims, stride) => entry.offset + ArrayShape.ravelFrom 0 dims index * stride

/-- What the script adds for an entry that is shown at an index. Offset and stride are
written with the mark of exact integers, dimensions and indices without. -/
def distance (entry : IndexEntry) (index : List Nat) : Nat :=
  match entry.array with
  | none => entry.offset
  | some (dims, stride) => entry.offset + scriptNumber dims index * stride

/-- An index that an entry can be shown at. The top stays at the one it is written with. -/
def Admits (entry : IndexEntry) (index : List Nat) : Prop :=
  ∀ dims stride, entry.array = some (dims, stride) →
    if entry.parent.isSome then ArrayShape.InRange dims index else index = dims.map fun _ => 0

/-- The index of the element that is shown. The top is no element of an array. -/
def shownIndex (entry : IndexEntry) (index : List Nat) : Option (List Nat) :=
  if entry.parent.isSome then entry.array.map fun _ => index else none

end IndexEntry

/-- The sum along a chain of what each entry contributes at the index chosen for it. -/
def sumAlong (part : IndexEntry → List Nat → Nat) (choice : Nat → List Nat) :
    List (Nat × IndexEntry) → Nat
  | [] => 0
  | (id, entry) :: above => part entry (choice id) + sumAlong part choice above

/-- Where a chain leads to, with an index for every number. -/
def placeAlong (choice : Nat → List Nat) (chain : List (Nat × IndexEntry)) : Nat :=
  sumAlong IndexEntry.offsetAt choice chain

/-- The address that the script adds up along a chain. -/
def addressAlong (choice : Nat → List Nat) (chain : List (Nat × IndexEntry)) : Nat :=
  sumAlong IndexEntry.distance choice chain

/-- An element that is shown for the entry with a number at the index chosen for it: one of
the node that the walk has at that number. -/
structure Shows (walk : List Element) (choice : Nat → List Nat) (step : Nat × IndexEntry)
    (e : Element) : Prop where
  node_eq : walk[step.1]?.map Element.node = some e.node
  index_eq : e.index = step.2.shownIndex (choice step.1)

theorem Shows.node_eq_of_walk {walk : List Element} {choice : Nat → List Nat} {id : Nat}
    {entry : IndexEntry} {e shown : Element} (h : Shows walk choice (id, entry) shown)
    (hwalk : walk[id]? = some e) : shown.node = e.node := by
  have hnode := h.node_eq
  rw [hwalk] at hnode
  exact (Option.some.inj hnode).symm

variable {options : WalkOptions}

/-! The chain of an entry. -/

theorem chain?_of_none {index : List IndexEntry} {id : Nat} {entry : IndexEntry}
    (hentry : index[id]? = some entry) (hparent : entry.parent = none) :
    chain? index id = some [(id, entry)] := by
  rw [chain?, hentry]
  simp [hparent]

theorem chain?_of_some {index : List IndexEntry} {id p : Nat} {entry : IndexEntry}
    {chain : List (Nat × IndexEntry)} (hentry : index[id]? = some entry)
    (hparent : entry.parent = some p) (hlt : p < id) (hchain : chain? index p = some chain) :
    chain? index id = some ((id, entry) :: chain) := by
  rw [chain?, hentry]
  simp [hparent, hlt, hchain]

/-- A chain is an entry alone, or an entry in front of the chain of its parent. -/
theorem chain?_cases {index : List IndexEntry} {id : Nat} {chain : List (Nat × IndexEntry)}
    (h : chain? index id = some chain) :
    ∃ entry rest, index[id]? = some entry ∧ chain = (id, entry) :: rest ∧
      (rest = [] ∨ ∃ p, p < id ∧ chain? index p = some rest) := by
  rw [chain?] at h
  obtain ⟨entry, hentry, h⟩ := Option.bind_eq_some_iff.1 h
  cases hparent : entry.parent with
  | none =>
    rw [hparent] at h
    exact ⟨entry, [], hentry, (Option.some.inj h).symm, Or.inl rfl⟩
  | some p =>
    simp only [hparent] at h
    split at h
    case isTrue hlt =>
      obtain ⟨rest, hrest, rfl⟩ := Option.map_eq_some_iff.1 h
      exact ⟨entry, rest, hentry, rfl, Or.inr ⟨p, hlt, hrest⟩⟩
    case isFalse => cases h

theorem getElem?_of_mem_chain {index : List IndexEntry} {id : Nat}
    {chain : List (Nat × IndexEntry)} (h : chain? index id = some chain) :
    ∀ step ∈ chain, index[step.1]? = some step.2 ∧ step.1 ≤ id := by
  induction id using Nat.strong_induction_on generalizing chain with
  | _ id ih =>
    obtain ⟨entry, rest, hentry, rfl, hrest⟩ := chain?_cases h
    refine List.forall_mem_cons.2 ⟨⟨hentry, Nat.le_refl id⟩, ?_⟩
    rcases hrest with rfl | ⟨p, hlt, hrest⟩
    · simp
    · exact fun step hstep => (ih p hlt hrest step hstep).imp_right fun hle => by omega

theorem nodup_of_chain? {index : List IndexEntry} {id : Nat} {chain : List (Nat × IndexEntry)}
    (h : chain? index id = some chain) : (chain.map Prod.fst).Nodup := by
  induction id using Nat.strong_induction_on generalizing chain with
  | _ id ih =>
    obtain ⟨entry, rest, _, rfl, hrest⟩ := chain?_cases h
    rw [List.map_cons, List.nodup_cons]
    rcases hrest with rfl | ⟨p, hlt, hrest⟩
    · simp
    · refine ⟨fun hmem => ?_, ih p hlt hrest⟩
      obtain ⟨step, hstep, hid⟩ := List.mem_map.1 hmem
      have hle := (getElem?_of_mem_chain hrest step hstep).2
      omega

/-- The occurrence of an unrolled walk that a chain of entries shows for the indices chosen.
It is met once, and lies where the chain leads to. -/
structure IsShown (options : WalkOptions) (top : Node) (choice : Nat → List Nat)
    (chain : List (Nat × IndexEntry)) (o : Occurrence) : Prop where
  mem : o ∈ Occurrence.all options.unrolled top
  shows : List.Forall₂ (Shows (Element.allBelow options top) choice) chain (o.element :: o.above)
  eq_of_shows : ∀ q ∈ Occurrence.all options.unrolled top,
    List.Forall₂ (Shows (Element.allBelow options top) choice) chain (q.element :: q.above) → q = o
  address_eq : placeAlong choice chain = o.element.address

/-! What the entry of an element tells about it. -/

section

variable {parent : Option Nat} {id size : Nat} {e : Element} {entry : IndexEntry}

theorem array_of_entryOf (h : entry.bare = entryOf options parent id e size) :
    entry.array = e.node.array.map fun shape => (shape.dimensions, shape.stride) :=
  congrArg IndexEntry.array h

theorem offsetAt_of_entryOf (h : entry.bare = entryOf options parent id e size)
    (index : List Nat) :
    entry.offsetAt index = e.offset + e.node.linearOf index * e.node.elementStride := by
  have hoffset : entry.offset = e.offset := congrArg IndexEntry.offset h
  have harray := array_of_entryOf h
  cases hshape : e.node.array with
  | none =>
    rw [hshape] at harray
    simp [IndexEntry.offsetAt, harray, hoffset, Node.linearOf_of_none hshape]
  | some a =>
    rw [hshape] at harray
    simp [IndexEntry.offsetAt, harray, hoffset, Node.linearOf_of_some hshape, Node.elementStride,
      hshape]

theorem linearOf_of_top (h : entry.bare = entryOf options none id e size) {index : List Nat}
    (hadmits : entry.Admits index) : e.node.linearOf index = 0 := by
  have hparent : entry.parent = none := congrArg IndexEntry.parent h
  cases hshape : e.node.array with
  | none => exact Node.linearOf_of_none hshape index
  | some a =>
    have hzeros := hadmits a.dimensions a.stride (by rw [array_of_entryOf h, hshape]; rfl)
    simp only [hparent, Option.isSome_none, Bool.false_eq_true, if_false] at hzeros
    rw [Node.linearOf_of_some hshape, hzeros, ArrayShape.ravelFrom_zeros]

theorem hasIndex_of_below {p : Nat} (h : entry.bare = entryOf options (some p) id e size)
    {index : List Nat} (hadmits : entry.Admits index) : e.node.HasIndex index := by
  have hparent : entry.parent = some p := congrArg IndexEntry.parent h
  intro a hshape
  have hrange := hadmits a.dimensions a.stride (by rw [array_of_entryOf h, hshape]; rfl)
  rwa [hparent] at hrange

theorem shownIndex_of_below {p : Nat} (h : entry.bare = entryOf options (some p) id e size)
    (index : List Nat) : entry.shownIndex index = e.node.array.map fun _ => index := by
  have hparent : entry.parent = some p := congrArg IndexEntry.parent h
  rw [IndexEntry.shownIndex, hparent, array_of_entryOf h, Option.map_map]
  rfl

end

/-! From an entry to the one below it. -/

variable {top : Node} {choice : Nat → List Nat}

/-- The entry of the top shows the top. -/
theorem isShown_top {id size : Nat} {entry : IndexEntry}
    (hwalk : (Element.allBelow options top)[id]? = some (.top top))
    (hentry : entry.bare = entryOf options none id (.top top) size)
    (hadmits : entry.Admits (choice id)) :
    IsShown options top choice [(id, entry)] (.top top) := by
  have hparent : entry.parent = none := congrArg IndexEntry.parent hentry
  refine ⟨Occurrence.mem_walk_self _ _, .cons ⟨by rw [hwalk]; rfl, ?_⟩ .nil, fun q hq hshows => ?_,
    ?_⟩
  · simp [IndexEntry.shownIndex, hparent, Occurrence.top, Element.top]
  · rcases Occurrence.eq_or_inside_of_mem_walk hq with rfl | ⟨r, _, e, _, rfl⟩
    · rfl
    · cases hshows with
      | cons _ habove => cases habove
  · have hoffset : entry.offsetAt (choice id) = top.offset := by
      rw [offsetAt_of_entryOf hentry, linearOf_of_top hentry hadmits]
      simp [Element.offset, Element.top]
    simp [placeAlong, sumAlong, hoffset, Occurrence.top, Element.top]

/-- What is shown for an entry is of the node that has its number in the walk. -/
theorem IsShown.node_eq {index : List IndexEntry} {chain : List (Nat × IndexEntry)}
    {o : Occurrence} (h : IsShown options top choice chain o) {id : Nat}
    (hchain : chain? index id = some chain) {e : Element}
    (hwalk : (Element.allBelow options top)[id]? = some e) : o.element.node = e.node := by
  obtain ⟨entry, rest, _, rfl, _⟩ := chain?_cases hchain
  cases h.shows with
  | cons hstep _ => exact hstep.node_eq_of_walk hwalk

/-- An entry below another shows an element right below the one that is shown for that. -/
theorem IsShown.below {chain : List (Nat × IndexEntry)} {o : Occurrence}
    (h : IsShown options top choice chain o) (hvalid : top.IsValid)
    (hroll : options.unroll = false) {id p size : Nat} {e parent : Element} {entry : IndexEntry}
    (hparent : o.element.node = parent.node) (he : e ∈ parent.children options)
    (hwalk : (Element.allBelow options top)[id]? = some e)
    (hentry : entry.bare = entryOf options (some p) id e size)
    (hadmits : entry.Admits (choice id)) :
    IsShown options top choice ((id, entry) :: chain)
      (o.inside (o.element.nth options.unrolled e.node (e.node.linearOf (choice id)))) := by
  have hchild : e.node ∈ o.element.node.children :=
    hparent ▸ Element.node_mem_of_mem_children he
  have hvisited : e.node ∈ top.visited options.skipAbsent :=
    Element.node_mem_visited (e := .top top) (List.mem_of_getElem? hwalk)
  have honly {c : Element} := Element.mem_children_unrolled_iff (e := c) hchild
    (Element.isSkipped_of_mem_children he)
    (hvalid.of_mem_subtree (Node.mem_subtree_of_mem_visited hvisited))
    (hasIndex_of_below hentry hadmits)
  have hindex := shownIndex_of_below hentry (choice id)
  obtain ⟨hmem, hnode, hat⟩ := honly.2 rfl
  refine ⟨Occurrence.inside_mem_walk h.mem hmem, .cons ⟨?_, ?_⟩ h.shows, fun q hq hshows => ?_, ?_⟩
  · rw [hwalk, Option.map_some]
    exact congrArg some hnode.symm
  · exact hat.trans hindex.symm
  · cases hshows with
    | cons hstep habove =>
      rcases Occurrence.eq_or_inside_of_mem_walk hq with rfl | ⟨r, hr, c, hc, rfl⟩
      · cases habove
        cases h.shows
      · obtain rfl := h.eq_of_shows r hr habove
        rw [honly.1 ⟨hc, hstep.node_eq_of_walk hwalk, hstep.index_eq.trans hindex⟩]
  · calc placeAlong choice ((id, entry) :: chain)
        = entry.offsetAt (choice id) + placeAlong choice chain := rfl
      _ = entry.offsetAt (choice id) + o.element.address := by rw [h.address_eq]
      _ = (o.element.nth options.unrolled e.node (e.node.linearOf (choice id))).address := by
          rw [offsetAt_of_entryOf hentry, Element.offset_of_mem_children hroll he,
            Element.address_nth_unrolled]
          omega

/-- The chain of every entry ends at the top. Whatever indices are chosen along it, it shows
an occurrence. -/
theorem Documents.exists_isShown {index : List IndexEntry}
    {pages : List (Nat × String)} (hvalid : top.IsValid) (hroll : options.unroll = false)
    (h : Documents options none 0 [.top top] (index.map IndexEntry.bare) pages) {id : Nat}
    (hid : id < index.length) :
    ∃ chain, chain? index id = some chain ∧
      ∀ choice : Nat → List Nat, (∀ step ∈ chain, step.2.Admits (choice step.1)) →
        ∃ o, IsShown options top choice chain o := by
  have hlength := h.length_eq
  rw [Element.forest_top, List.length_map] at hlength
  induction id using Nat.strong_induction_on with
  | _ id ih =>
    obtain ⟨entry, hentry⟩ : ∃ entry, index[id]? = some entry :=
      ⟨_, List.getElem?_eq_getElem hid⟩
    obtain ⟨e, hwalk⟩ : ∃ e, (Element.allBelow options top)[id]? = some e :=
      ⟨_, List.getElem?_eq_getElem (hlength ▸ hid)⟩
    have hnumbered := mem_zipIdx_walk hwalk hentry
    obtain ⟨parent, size, _, _, hentryOf, _⟩ := h.documented _ hnumbered
    have hparent : entry.parent = parent := congrArg IndexEntry.parent hentryOf
    rcases h.placed _ hnumbered with ⟨hnone, htop⟩ | ⟨p, f, hsome, hlt, hf, hchild⟩
    · obtain rfl := List.mem_singleton.1 htop
      obtain rfl : none = parent := hnone.symm.trans hparent
      refine ⟨_, chain?_of_none hentry hparent, fun choice hadmits => ⟨.top top, ?_⟩⟩
      exact isShown_top hwalk hentryOf (hadmits _ List.mem_cons_self)
    · obtain rfl : some p = parent := hsome.symm.trans hparent
      have habove : (Element.allBelow options top)[p]? = some f :=
        List.mk_mem_zipIdx_iff_getElem?.1 (Element.forest_top options top ▸ hf)
      obtain ⟨chain, hchain, hshown⟩ := ih p hlt (Nat.lt_trans hlt hid)
      refine ⟨_, chain?_of_some hentry hparent hlt hchain, fun choice hadmits => ?_⟩
      obtain ⟨o, ho⟩ := hshown choice fun step hstep => hadmits step (List.mem_cons_of_mem _ hstep)
      exact ⟨_, ho.below hvalid hroll (ho.node_eq hchain habove) hchild hwalk hentryOf
        (hadmits _ List.mem_cons_self)⟩

/-! What doubles make of a chain. -/

namespace IndexEntry

/-- Whether the script folds every index that an entry can be shown at as it is meant. The
top is shown at zeros, and no index matters where all elements lie at one place. -/
def IsFolded (entry : IndexEntry) : Prop :=
  ∀ dims stride, entry.array = some (dims, stride) → entry.parent.isSome = true →
    stride = 0 ∨ AreFolded dims

theorem IsFolded.of_le {entry : IndexEntry}
    (h : ∀ dim ∈ (entry.array.map Prod.fst).getD [], dim ≤ doubleBound) : entry.IsFolded := by
  intro dims stride harray _
  rw [harray] at h
  exact Or.inr (AreFolded.of_le h)

/-- The index that an entry is written with. -/
def zeros (entry : IndexEntry) : List Nat :=
  (entry.array.map fun array => array.1.map fun _ => 0).getD []

variable {entry : IndexEntry}

theorem distance_zeros (entry : IndexEntry) :
    entry.distance entry.zeros = entry.offsetAt entry.zeros := by
  unfold distance offsetAt zeros
  cases entry.array with
  | none => rfl
  | some array =>
    simp only [Option.map_some, Option.getD_some, scriptNumber_zeros, ravelFrom_zeros,
      Nat.zero_mul]

/-- The dimensions of an entry are those of an array whose elements can be counted. -/
def IsCounted (entry : IndexEntry) : Prop :=
  ∀ dims stride, entry.array = some (dims, stride) →
    (∀ dim ∈ dims, 0 < dim) ∧ dims.prod < Word.limit

theorem IsCounted.admits_zeros (h : entry.IsCounted) : entry.Admits entry.zeros := by
  intro dims stride harray
  have hzeros : entry.zeros = dims.map fun _ => 0 := by simp [zeros, harray]
  rw [hzeros]
  split
  · exact List.forall₂_map_left_iff.2 (List.forall₂_same.2 (h dims stride harray).1)
  · rfl

/-- The script adds the right distance for an entry wherever that is shown, just if it folds
the indices rightly. -/
theorem IsCounted.isFolded_iff (h : entry.IsCounted) :
    entry.IsFolded ↔ ∀ index, entry.Admits index → entry.distance index = entry.offsetAt index := by
  cases harray : entry.array with
  | none => simp [IsFolded, distance, offsetAt, harray]
  | some array =>
    obtain ⟨dims, stride⟩ := array
    obtain ⟨hpos, hword⟩ := h dims stride harray
    have hdistance (index : List Nat) : entry.distance index = entry.offsetAt index ↔
        stride = 0 ∨ scriptNumber dims index = ArrayShape.ravelFrom 0 dims index := by
      simp only [distance, offsetAt, harray, Nat.add_left_cancel_iff]
      rcases Nat.eq_zero_or_pos stride with rfl | hstride
      · simp
      · rw [Nat.mul_right_cancel_iff hstride, or_iff_right (by omega)]
    constructor
    · intro hfolded index hadmits
      have hindex := hadmits dims stride harray
      split at hindex
      case isTrue hparent =>
        exact (hdistance index).2 ((hfolded dims stride harray hparent).imp_right fun hdims =>
          hdims.scriptNumber_eq hindex)
      case isFalse =>
        have hzeros : index = entry.zeros := by simp [hindex, zeros, harray]
        rw [hzeros, distance_zeros]
    · intro hall dims' stride' harray' hparent
      obtain ⟨rfl, rfl⟩ := Prod.mk.inj (Option.some.inj (harray.symm.trans harray'))
      refine or_iff_not_imp_left.2 fun hstride =>
        (areFolded_iff hpos hword).2 fun index hindex => ?_
      have hadmits : entry.Admits index := by
        intro _ _ heq
        obtain ⟨rfl, rfl⟩ := Prod.mk.inj (Option.some.inj (harray.symm.trans heq))
        rwa [if_pos hparent]
      exact ((hdistance index).1 (hall index hadmits)).resolve_left hstride

end IndexEntry

theorem sumAlong_update {part : IndexEntry → List Nat → Nat} {choice : Nat → List Nat} {id : Nat}
    {chain : List (Nat × IndexEntry)} (h : id ∉ chain.map Prod.fst) (index : List Nat) :
    sumAlong part (Function.update choice id index) chain = sumAlong part choice chain := by
  induction chain with
  | nil => rfl
  | cons step above ih =>
    obtain ⟨hid, hrest⟩ := List.ne_and_not_mem_of_not_mem_cons h
    rw [sumAlong, sumAlong, Function.update_of_ne hid.symm, ih hrest]

section FirstStep

variable {id : Nat} {entry : IndexEntry} {above : List (Nat × IndexEntry)}

theorem sumAlong_cons_update (part : IndexEntry → List Nat → Nat) (choice : Nat → List Nat)
    (entry : IndexEntry) (h : id ∉ above.map Prod.fst) (index : List Nat) :
    sumAlong part (Function.update choice id index) ((id, entry) :: above) =
      part entry index + sumAlong part choice above := by
  rw [sumAlong, Function.update_self, sumAlong_update h]

/-- A choice for what is above goes with any index of the first entry. -/
theorem forall_admits_update (h : id ∉ above.map Prod.fst) {choice : Nat → List Nat}
    {index : List Nat} (hchoice : ∀ step ∈ above, step.2.Admits (choice step.1))
    (hindex : entry.Admits index) :
    ∀ step ∈ (id, entry) :: above, step.2.Admits (Function.update choice id index step.1) := by
  refine List.forall_mem_cons.2 ⟨by rwa [Function.update_self], fun step hstep => ?_⟩
  have hne : step.1 ≠ id := by
    rintro rfl
    exact h (List.mem_map.2 ⟨step, hstep, rfl⟩)
  rw [Function.update_of_ne hne]
  exact hchoice step hstep

end FirstStep

/-- The indices along a chain are chosen one by one. So the script is right at all choices
just if it is right at every entry, given that it is right at the index which that is written
with. -/
theorem forall_addressAlong_eq_iff {chain : List (Nat × IndexEntry)}
    (hnodup : (chain.map Prod.fst).Nodup) (base : Nat → List Nat)
    (hadmits : ∀ step ∈ chain, step.2.Admits (base step.1))
    (hbase : ∀ step ∈ chain, step.2.distance (base step.1) = step.2.offsetAt (base step.1)) :
    (∀ choice : Nat → List Nat, (∀ step ∈ chain, step.2.Admits (choice step.1)) →
      addressAlong choice chain = placeAlong choice chain) ↔
    ∀ step ∈ chain, ∀ index, step.2.Admits index →
      step.2.distance index = step.2.offsetAt index := by
  induction chain with
  | nil => simp [addressAlong, placeAlong, sumAlong]
  | cons step above ih =>
    obtain ⟨id, entry⟩ := step
    rw [List.map_cons, List.nodup_cons] at hnodup
    obtain ⟨hfirst, hrest⟩ := List.forall_mem_cons.1 hadmits
    obtain ⟨hfirstEq, hrestEq⟩ := List.forall_mem_cons.1 hbase
    have hsum (part : IndexEntry → List Nat → Nat) (choice : Nat → List Nat) :=
      sumAlong_cons_update part choice entry hnodup.1
    rw [List.forall_mem_cons, ← ih hnodup.2 hrest hrestEq]
    have habove : (∀ choice : Nat → List Nat,
        (∀ step ∈ (id, entry) :: above, step.2.Admits (choice step.1)) →
          addressAlong choice ((id, entry) :: above) = placeAlong choice ((id, entry) :: above)) →
        ∀ choice : Nat → List Nat, (∀ step ∈ above, step.2.Admits (choice step.1)) →
          addressAlong choice above = placeAlong choice above := by
      intro hall choice hchoice
      have heq := hall _ (forall_admits_update hnodup.1 hchoice hfirst)
      rw [addressAlong, placeAlong, hsum, hsum, hfirstEq] at heq
      exact Nat.add_left_cancel heq
    constructor
    · refine fun hall => ⟨fun index hindex => ?_, habove hall⟩
      have heq := hall _ (forall_admits_update hnodup.1 hrest hindex)
      have hrestSum : sumAlong IndexEntry.distance base above =
          sumAlong IndexEntry.offsetAt base above := habove hall base hrest
      rw [addressAlong, placeAlong, hsum, hsum, hrestSum] at heq
      exact Nat.add_right_cancel heq
    · rintro ⟨hentry, hsums⟩ choice hchoice
      obtain ⟨hfirst, hrest⟩ := List.forall_mem_cons.1 hchoice
      have hrestSum : sumAlong IndexEntry.distance choice above =
          sumAlong IndexEntry.offsetAt choice above := hsums choice hrest
      rw [addressAlong, placeAlong, sumAlong, sumAlong, hentry _ hfirst, hrestSum]

theorem Documents.isCounted {index : List IndexEntry} {pages : List (Nat × String)}
    (hvalid : top.IsValid)
    (h : Documents options none 0 [.top top] (index.map IndexEntry.bare) pages) {id : Nat}
    {entry : IndexEntry} (hentry : index[id]? = some entry) : entry.IsCounted := by
  have hlength := h.length_eq
  rw [Element.forest_top, List.length_map] at hlength
  obtain ⟨e, hwalk⟩ : ∃ e, (Element.allBelow options top)[id]? = some e :=
    ⟨_, List.getElem?_eq_getElem (hlength ▸ (List.getElem?_eq_some_iff.1 hentry).1)⟩
  obtain ⟨_, _, _, _, hentryOf, _⟩ := h.documented _ (mem_zipIdx_walk hwalk hentry)
  have hvisited : e.node ∈ top.visited options.skipAbsent :=
    Element.node_mem_visited (e := .top top) (List.mem_of_getElem? hwalk)
  have hsound := hvalid.of_mem_subtree (Node.mem_subtree_of_mem_visited hvisited)
  intro dims stride harray
  rw [array_of_entryOf hentryOf, Option.map_eq_some_iff] at harray
  obtain ⟨shape, hshape, heq⟩ := harray
  obtain ⟨rfl, rfl⟩ := Prod.mk.inj heq
  have hcounted := (hsound.array_isSound hshape).isCounted
  exact ⟨hcounted.dimension_pos, hcounted.prod_lt⟩

/-- The script is right about the entry with a number, whatever the indices are, just if each
entry of its chain is folded rightly. -/
theorem Documents.forall_addressAlong_iff {index : List IndexEntry}
    {pages : List (Nat × String)} (hvalid : top.IsValid)
    (h : Documents options none 0 [.top top] (index.map IndexEntry.bare) pages) {id : Nat}
    {chain : List (Nat × IndexEntry)} (hchain : chain? index id = some chain) :
    (∀ choice : Nat → List Nat, (∀ step ∈ chain, step.2.Admits (choice step.1)) →
      addressAlong choice chain = placeAlong choice chain) ↔
    ∀ step ∈ chain, step.2.IsFolded := by
  have hcounted : ∀ step ∈ chain, step.2.IsCounted := fun step hstep =>
    h.isCounted hvalid (getElem?_of_mem_chain hchain step hstep).1
  let base (i : Nat) : List Nat := (index[i]?.map IndexEntry.zeros).getD []
  have hbase : ∀ step ∈ chain, base step.1 = step.2.zeros := by
    intro step hstep
    simp only [base, (getElem?_of_mem_chain hchain step hstep).1, Option.map_some,
      Option.getD_some]
  rw [forall_addressAlong_eq_iff (nodup_of_chain? hchain) base
    (fun step hstep => hbase step hstep ▸ (hcounted step hstep).admits_zeros)
    (fun step hstep => hbase step hstep ▸ step.2.distance_zeros)]
  exact forall₂_congr fun step hstep => (hcounted step hstep).isFolded_iff.symm

/-- Whatever indices are chosen along the chain of an entry of a reference, one occurrence of
the unrolled walk is shown: that of the same nodes at these indices. The address that the
script of the page adds up is its address at all choices just if each array of the chain is
folded rightly in doubles. Dimensions of no more than fifty-three binary digits are. -/
theorem export_addresses_add_up_iff (setup : Setup) {top : Node} {destination : Path}
    {a : Artifact} {s : Session State}
    (h : (emitter setup).produce top destination = (.ok a, s)) :
    ∃ files, a = .tree files ∧
      files.get? ⟨"js/data.js"⟩ =
        some (indexScript s.state.index.toList (titleOf setup.options top)).toUTF8 ∧
      ∀ id < s.state.index.toList.length, ∃ chain, chain? s.state.index.toList id = some chain ∧
        (∀ choice : Nat → List Nat, (∀ step ∈ chain, step.2.Admits (choice step.1)) →
          ∃ o, IsShown (walkOptions setup.options) top choice chain o) ∧
        ((∀ (choice : Nat → List Nat) (o : Occurrence),
            (∀ step ∈ chain, step.2.Admits (choice step.1)) →
              IsShown (walkOptions setup.options) top choice chain o →
                addressAlong choice chain = o.element.address) ↔
          ∀ step ∈ chain, step.2.IsFolded) := by
  obtain ⟨rfl, hassets, hdocuments⟩ := documents_of_produce h
  obtain ⟨⟨_, hvalid⟩, _⟩ := (emitter setup).produce_eq_ok_iff.1 h
  have htop := Node.isValid_of_validate hvalid
  refine ⟨_, rfl, get?_filesOf_data _ _ hassets, fun id hid => ?_⟩
  obtain ⟨chain, hchain, hshown⟩ := hdocuments.exists_isShown htop rfl hid
  refine ⟨chain, hchain, hshown, ?_⟩
  rw [← hdocuments.forall_addressAlong_iff htop hchain]
  constructor
  · intro hall choice hadmits
    obtain ⟨o, ho⟩ := hshown choice hadmits
    rw [hall choice o hadmits ho, ho.address_eq]
  · intro hall choice o hadmits ho
    rw [hall choice hadmits, ho.address_eq]

/-- A bank of cells, both arrays, in a map that is an array as well. -/
def cellMap : Node :=
  let cells := { Node.reg "cell" with offset := 8, array := some ⟨[2, 3], 4⟩ }
  { Node.addrmap "chip" with offset := 4096, array := some ⟨[4], 512⟩ }.addChild
    ({ Node.regfile "bank" with offset := 32, array := some ⟨[2], 64⟩ }.addChild cells)

/-- The last cell of the second bank. The map is shown at its first element. -/
theorem export_addresses_add_up_iff_of_cells :
    ∃ files s chain o, (emitter ⟨{}, .plainText, .empty⟩).produce cellMap ⟨"chip"⟩ =
        (.ok (.tree files), s) ∧
      chain? s.state.index.toList 2 = some chain ∧
      IsShown (walkOptions {}) cellMap (fun id => [[0], [1], [1, 2]].getD id []) chain o ∧
      addressAlong (fun id => [[0], [1], [1, 2]].getD id []) chain = o.element.address ∧
      o.element.address = 4096 + (32 + 64) + (8 + 5 * 4) := by
  let chip : IndexEntry := ⟨none, #[1], "chip", 4096, 128, some ([4], 512), none⟩
  let bank : IndexEntry := ⟨some 0, #[2], "bank", 32, 32, some ([2], 64), none⟩
  let cell : IndexEntry := ⟨some 1, #[], "cell", 8, 4, some ([2, 3], 4), some []⟩
  have hok : ((emitter ⟨{}, .plainText, .empty⟩).produce cellMap ⟨"chip"⟩).1.isOk = true := by
    decide +kernel
  have hindex : ((emitter ⟨{}, .plainText, .empty⟩).produce cellMap
      ⟨"chip"⟩).2.state.index.toList = [chip, bank, cell] := by
    decide +kernel
  have hsteps : chain? [chip, bank, cell] 2 = some [(2, cell), (1, bank), (0, chip)] := by
    decide +kernel
  obtain ⟨a, s, hproduce, hlast⟩ := (emitter ⟨{}, .plainText, .empty⟩).exists_produce_eq_ok hok
  rw [hlast] at hindex
  obtain ⟨files, rfl, _, hall⟩ := export_addresses_add_up_iff ⟨{}, .plainText, .empty⟩ hproduce
  obtain ⟨chain, hchain, hshown, hiff⟩ := hall 2 (by rw [hindex]; decide)
  obtain rfl : [(2, cell), (1, bank), (0, chip)] = chain :=
    Option.some.inj (hsteps.symm.trans (hindex ▸ hchain))
  have hadmits : ∀ step ∈ [(2, cell), (1, bank), (0, chip)],
      step.2.Admits ([[0], [1], [1, 2]].getD step.1 []) := by
    simp [IndexEntry.Admits, chip, bank, cell, ArrayShape.InRange]
  obtain ⟨o, ho⟩ := hshown (fun id => [[0], [1], [1, 2]].getD id []) hadmits
  have hfolded : ∀ step ∈ [(2, cell), (1, bank), (0, chip)], step.2.IsFolded := fun step hstep =>
    .of_le ((by decide : ∀ step ∈ [(2, cell), (1, bank), (0, chip)],
      ∀ dim ∈ (step.2.array.map Prod.fst).getD [], dim ≤ doubleBound) step hstep)
  exact ⟨files, s, _, o, hproduce, hchain, ho, hiff.2 hfolded _ o hadmits ho,
    ho.address_eq.symm.trans (by decide)⟩

/-- A register twice as many times as the first number that is no double. -/
def wideMap : Node :=
  (Node.addrmap "t").addChild { Node.reg "r" with array := some ⟨[2, 9007199254740993], 4⟩ }

/-- The script counts an element too few in front of the second half. -/
theorem wideMap_is_added_up_wrong :
    ∃ files s chain o, (emitter ⟨{}, .plainText, .empty⟩).produce wideMap ⟨"t"⟩ =
        (.ok (.tree files), s) ∧
      chain? s.state.index.toList 1 = some chain ∧
      IsShown (walkOptions {}) wideMap (fun id => [[], [1, 0]].getD id []) chain o ∧
      addressAlong (fun id => [[], [1, 0]].getD id []) chain = 36028797018963968 ∧
      o.element.address = 36028797018963972 := by
  let t : IndexEntry := ⟨none, #[1], "t", 0, 72057594037927944, none, none⟩
  let r : IndexEntry := ⟨some 0, #[], "r", 0, 4, some ([2, 9007199254740993], 4), some []⟩
  have hok : ((emitter ⟨{}, .plainText, .empty⟩).produce wideMap ⟨"t"⟩).1.isOk = true := by
    decide +kernel
  have hindex : ((emitter ⟨{}, .plainText, .empty⟩).produce wideMap
      ⟨"t"⟩).2.state.index.toList = [t, r] := by
    decide +kernel
  have hsteps : chain? [t, r] 1 = some [(1, r), (0, t)] := by decide +kernel
  have hsum : addressAlong (fun id => [[], [1, 0]].getD id []) [(1, r), (0, t)] =
      36028797018963968 := by
    decide +kernel
  have hplace : placeAlong (fun id => [[], [1, 0]].getD id []) [(1, r), (0, t)] =
      36028797018963972 := by
    decide +kernel
  obtain ⟨a, s, hproduce, hlast⟩ := (emitter ⟨{}, .plainText, .empty⟩).exists_produce_eq_ok hok
  obtain ⟨rfl, _, hdocuments⟩ := documents_of_produce hproduce
  obtain ⟨⟨_, hvalid⟩, _⟩ := (emitter ⟨{}, .plainText, .empty⟩).produce_eq_ok_iff.1 hproduce
  rw [hlast] at hindex
  have hid : 1 < s.state.index.toList.length := by rw [hindex]; decide
  obtain ⟨chain, hchain, hshown⟩ :=
    hdocuments.exists_isShown (Node.isValid_of_validate hvalid) rfl hid
  obtain rfl : [(1, r), (0, t)] = chain := Option.some.inj (hsteps.symm.trans (hindex ▸ hchain))
  obtain ⟨o, ho⟩ := hshown (fun id => [[], [1, 0]].getD id []) (by
    simp [IndexEntry.Admits, t, r, ArrayShape.InRange])
  exact ⟨_, s, _, o, hproduce, hchain, ho, hsum, ho.address_eq.symm.trans hplace⟩

end Html

end RegisterMap
