import Mathlib.Order.Bounds.Defs
import RegisterMap.Proofs.AddressSpace

/-!
Sizes that follow from the contents. A container without a size of its own reaches exactly as
far as what lies in it, whatever the order of its children, however their arrays are nested
and whether or not they overlap. The bound is carried down one child at a time, to the last
element of its array; that element is also where the size is reached.
-/

namespace RegisterMap

namespace Node

/-! Sizes that are found. -/

theorem size?_of_container {n : Node} (hkind : n.kind = .addrmap ∨ n.kind = .regfile)
    (hnone : n.size = none) : n.size? = extent? n.children := by
  cases n with
  | mk name kind offset size array properties children fields source =>
    subst hnone
    rcases hkind with hkind | hkind <;> subst hkind <;> rfl

theorem bytes_of_container {n : Node} (hkind : n.kind = .addrmap ∨ n.kind = .regfile)
    (hnone : n.size = none) : n.bytes = extent n.children := by
  cases n with
  | mk name kind offset size array properties children fields source =>
    subst hnone
    rcases hkind with hkind | hkind <;> subst hkind <;> rfl

theorem extent?_lt {nodes : List Node} {size : Nat} (h : extent? nodes = some size) :
    size < Word.limit := by
  induction nodes generalizing size with
  | nil =>
    obtain rfl : 0 = size := by simpa [extent?] using h
    decide
  | cons child rest ih =>
    simp only [extent?, Option.bind_eq_bind, Option.bind_eq_some_iff, Word.add?_eq_some_iff,
      Option.some.injEq] at h
    obtain ⟨_, _, _, _, _, ⟨rfl, hfinish⟩, _, hothers, rfl⟩ := h
    exact Nat.max_lt.2 ⟨hfinish, ih hothers⟩

/-- A size that is found is the exact one. -/
theorem size?_eq_bytes {n : Node} (h : n.IsValid) (hsize : n.size?.isSome = true) :
    n.size? = some n.bytes := by
  obtain ⟨size, hsome⟩ := Option.isSome_iff_exists.1 hsize
  have hexact : size < Word.limit → n.size? = some n.bytes := fun hword => by
    rw [hsome, (agrees_size? h size hword).1 hsome]
  cases n with
  | mk name kind offset given array properties children fields source =>
    cases given with
    | some given => rfl
    | none =>
      cases kind with
      | reg => rfl
      | mem =>
        obtain ⟨rfl, hword⟩ := Word.mul?_eq_some_iff.1 hsome
        exact hexact hword
      | addrmap => exact hexact (extent?_lt hsome)
      | regfile => exact hexact (extent?_lt hsome)

/-! Ends of children. -/

theorem le_extent_of_mem {nodes : List Node} {child : Node} (h : child ∈ nodes) :
    child.offset + (child.lead + child.bytes) ≤ extent nodes := by
  induction nodes with
  | nil => cases h
  | cons other rest ih =>
    rw [extent]
    rcases List.mem_cons.1 h with rfl | hrest
    · exact Nat.le_max_left _ _
    · exact Nat.le_trans (ih hrest) (Nat.le_max_right _ _)

/-- Some child ends where all children together do. -/
theorem exists_end_eq_extent {nodes : List Node} (h : nodes ≠ []) :
    ∃ child ∈ nodes, child.offset + (child.lead + child.bytes) = extent nodes := by
  induction nodes with
  | nil => exact absurd rfl h
  | cons other rest ih =>
    rw [extent]
    rcases Nat.le_total (extent rest) (other.offset + (other.lead + other.bytes)) with hle | hle
    · exact ⟨other, List.mem_cons_self, (Nat.max_eq_left hle).symm⟩
    · cases rest with
      | nil => exact ⟨other, List.mem_cons_self, (Nat.max_eq_left (Nat.zero_le _)).symm⟩
      | cons next more =>
        obtain ⟨child, hchild, hend⟩ := ih (List.cons_ne_nil next more)
        exact ⟨child, List.mem_cons_of_mem other hchild, hend.trans (Nat.max_eq_right hle).symm⟩

/-! Containers without a size of their own. -/

/-- No container of a tree is given a size. -/
def HasDerivedSizes (n : Node) : Prop :=
  ∀ m ∈ n.subtree, m.kind = .addrmap ∨ m.kind = .regfile → m.size = none

instance (n : Node) : Decidable n.HasDerivedSizes :=
  inferInstanceAs (Decidable (∀ m ∈ n.subtree, _ → _))

theorem HasDerivedSizes.child {n c : Node} (h : n.HasDerivedSizes) (hc : c ∈ n.children) :
    c.HasDerivedSizes :=
  fun m hm => h m (mem_subtree_of_child hc hm)

theorem HasDerivedSizes.of_mem_subtree {n m : Node} (h : n.HasDerivedSizes)
    (hm : m ∈ n.subtree) : m.HasDerivedSizes := by
  induction n using Node.induction with
  | step n ih =>
    rw [subtree_eq, List.mem_cons, List.mem_flatMap] at hm
    rcases hm with rfl | ⟨child, hchild, hm⟩
    · exact h
    · exact ih child hchild (h.child hchild) hm

/-- Where the size of a map is found, so are the sizes of all nodes in it: none of them ends
behind its parent. -/
theorem size?_of_mem_subtree {n : Node} (h : n.IsValid) (hderived : n.HasDerivedSizes)
    (hsize : n.size? = some n.bytes) : ∀ m ∈ n.subtree, m.size? = some m.bytes := by
  induction n using Node.induction with
  | step n ih =>
    intro m hm
    rw [subtree_eq, List.mem_cons, List.mem_flatMap] at hm
    rcases hm with rfl | ⟨child, hchild, hm⟩
    · exact hsize
    · have hkind := h.container_of_child hchild
      have hnone := hderived n n.mem_subtree_self hkind
      rw [size?_of_container hkind hnone, bytes_of_container hkind hnone] at hsize
      have hend := le_extent_of_mem hchild
      have hword := extent?_lt hsize
      refine ih child hchild (h.child hchild) (hderived.child hchild) ?_ m hm
      exact (agrees_size? (h.child hchild) _ (by omega)).2 rfl

end Node

namespace Element

variable {options : WalkOptions}

theorem node_mem_subtree_of_mem_preorder {e : Element} :
    ∀ q ∈ preorder options e.node e, q.node ∈ e.node.subtree := by
  induction e using Element.induction options with
  | step e ih =>
    intro q hq
    rw [preorder_eq, List.mem_cons, List.mem_flatMap] at hq
    rcases hq with rfl | ⟨c, hc, hq⟩
    · exact q.node.mem_subtree_self
    · exact Node.mem_subtree_of_child (node_mem_of_mem_children hc) (ih c hc q hq)

theorem node_mem_subtree_of_mem_descendants {e : Element} :
    ∀ q ∈ e.descendants options, q.node ∈ e.node.subtree := fun q hq =>
  node_mem_subtree_of_mem_preorder q (preorder_eq_cons options e ▸ List.mem_cons_of_mem e hq)

theorem le_address_of_mem_ofChild {parent c : Element} {child : Node}
    (hc : c ∈ parent.ofChild options child) : parent.address ≤ c.address := by
  obtain ⟨number, _, rfl⟩ := List.mem_map.1 hc
  unfold nth
  split
  · simp only [item, elementAddress]
    omega
  · simp only [whole]
    omega

/-- A child and all below it lie where the parent does, up to its end. -/
theorem end_le_of_mem_descendants {e : Element} (h : e.node.IsValid)
    (hderived : e.node.HasDerivedSizes) :
    ∀ q ∈ e.descendants options,
      e.address ≤ q.address ∧ q.address + q.node.bytes ≤ e.address + e.node.bytes := by
  induction e using Element.induction options with
  | step e ih =>
    intro q hq
    obtain ⟨c, hc, hq⟩ := List.mem_flatMap.1 hq
    obtain ⟨child, hchild, hmem⟩ := List.mem_flatMap.1 hc
    have hkind := h.container_of_child hchild
    have hbytes := Node.bytes_of_container hkind (hderived _ e.node.mem_subtree_self hkind)
    have hextent := Node.le_extent_of_mem hchild
    have hstart := le_address_of_mem_ofChild hmem
    have hlast := address_le_of_mem_ofChild hmem
    have hnode := node_of_mem_ofChild hmem
    rw [preorder_eq_cons, List.mem_cons] at hq
    rcases hq with rfl | hq
    · rw [hnode]
      omega
    · have hbelow := ih c hc (hnode ▸ h.child hchild) (hnode ▸ hderived.child hchild) q hq
      rw [hnode] at hbelow
      omega

/-- The last element of some child ends where all children together do. -/
theorem exists_descendant_end_eq {e : Element} (h : e.node.IsValid) (hne : e.node.children ≠ []) :
    ∃ q ∈ e.descendants { unroll := true },
      q.address + q.node.bytes = e.address + Node.extent e.node.children := by
  obtain ⟨child, hchild, hend⟩ := Node.exists_end_eq_extent hne
  obtain ⟨c, hc, hlast⟩ := e.exists_last_mem_ofChild (h.child hchild)
  refine ⟨c, List.mem_flatMap.2 ⟨c, List.mem_flatMap.2 ⟨child, hchild, hc⟩,
    mem_preorder_self _ c⟩, ?_⟩
  rw [node_of_mem_ofChild hc]
  omega

/-- So many bytes from the start of an element on take in all that the unrolled walk meets
below it. -/
def Covers (c : Element) (bytes : Nat) : Prop :=
  ∀ e ∈ c.descendants { unroll := true }, ∃ own, e.node.size? = some own ∧
    c.address ≤ e.address ∧ e.address + own ≤ c.address + bytes

end Element

/-- If no container of a valid map is given a size, and the map has a size at all, as it has
where it fits the address space, then each container of the unrolled walk has the least size
that covers all elements in it, and the size zero if there are none. -/
theorem Node.derived_sizes_cover {top : Node} (hvalid : top.validate = .ok ())
    (hderived : top.HasDerivedSizes) (hfits : top.size?.isSome = true) :
    ∀ c ∈ Element.allBelow { unroll := true } top,
      c.node.kind = .addrmap ∨ c.node.kind = .regfile →
        ∃ size, c.node.size? = some size ∧ IsLeast { bytes | c.Covers bytes } size ∧
          (c.node.children = [] → size = 0) := by
  intro c hc hkind
  have hall := Node.isValid_of_validate hvalid
  have hmem := Element.node_mem_subtree_of_mem_preorder (e := .top top) c hc
  have hnode : c.node.HasDerivedSizes := hderived.of_mem_subtree hmem
  have hnone := hnode _ c.node.mem_subtree_self hkind
  have hbytes := Node.bytes_of_container hkind hnone
  have hsize := Node.size?_of_mem_subtree hall hderived (Node.size?_eq_bytes hall hfits) _ hmem
  have hbelow := Node.size?_of_mem_subtree (hall.of_mem_subtree hmem) hnode hsize
  have hcovers : c.Covers c.node.bytes := fun e he =>
    ⟨e.node.bytes, hbelow _ (Element.node_mem_subtree_of_mem_descendants e he),
      Element.end_le_of_mem_descendants (hall.of_mem_subtree hmem) hnode e he⟩
  have hleast : ∀ bytes, c.Covers bytes → c.node.bytes ≤ bytes := by
    intro bytes hbound
    by_cases hchildren : c.node.children = []
    · rw [hbytes, hchildren]
      exact Nat.zero_le bytes
    · obtain ⟨e, he, hend⟩ := Element.exists_descendant_end_eq (hall.of_mem_subtree hmem) hchildren
      obtain ⟨own, hown, _, hle⟩ := hbound e he
      obtain rfl : e.node.bytes = own := Option.some.inj <|
        (hbelow _ (Element.node_mem_subtree_of_mem_descendants e he)).symm.trans hown
      omega
  refine ⟨c.node.bytes, hsize, ⟨hcovers, hleast⟩, fun hchildren => ?_⟩
  rw [hbytes, hchildren]
  rfl

/-- An array of register files, which overlap as their registers do, an empty register file and
a register that is not present. -/
def overlappingMap : Node :=
  let word : Node := { Node.reg "word" with array := some ⟨[2, 3], 2⟩, offset := 4 }
  let bank : Node :=
    { Node.regfile "bank" with array := some ⟨[2], 8⟩, offset := 32, children := [word] }
  let spare : Node := { Node.regfile "spare" with offset := 8 }
  let old : Node := { Node.reg "old" with offset := 60 }
  { Node.addrmap "chip" with
    offset := 4096
    children := [bank, spare, old.withProperty "ispresent" (.bool false)] }

theorem derived_sizes_cover_overlappingMap :
    ((Element.allBelow { unroll := true } overlappingMap).filter fun c =>
        c.node.kind = .addrmap ∨ c.node.kind = .regfile).map
          (fun c => (c.path, c.address, c.node.size?)) =
        [("chip", 4096, some 64), ("chip.bank[0]", 4128, some 18), ("chip.bank[1]", 4136, some 18),
          ("chip.spare", 4104, some 0)] ∧
      ∀ c ∈ Element.allBelow { unroll := true } overlappingMap,
        c.node.kind = .addrmap ∨ c.node.kind = .regfile →
          ∃ size, c.node.size? = some size ∧ IsLeast { bytes | c.Covers bytes } size ∧
            (c.node.children = [] → size = 0) := by
  have hvalid : overlappingMap.validate = .ok () := by decide +kernel
  have hderived : overlappingMap.HasDerivedSizes := by decide +kernel
  have hsize : overlappingMap.size?.isSome = true := by decide +kernel
  exact ⟨by decide +kernel, Node.derived_sizes_cover hvalid hderived hsize⟩

end RegisterMap
