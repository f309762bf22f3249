import RegisterMap.Proofs.Occurrence
import RegisterMap.Proofs.Valid

/-!
Which maps fit the address space. Sizes and addresses are worked out here as
numbers without a bound; a map fits if those of them that are largest are words.
Validation asks less: it looks at the distance between the first and the last
element of an array, but neither at what lies in front of it nor at the size of
the last element.
-/

namespace RegisterMap

namespace Node

/-- The distance from the first element of a node to the last. -/
def lead (n : Node) : Nat := n.elementStride * (n.elementCount - 1)

mutual

/-- The bytes of one element. -/
def bytes : Node → Nat
  | n@{ size, kind, children, .. } =>
    match size, kind with
    | some given, _ => given
    | none, .reg => n.regWidth / 8
    | none, .mem => n.memEntries?.getD 0 * ((n.memWidth + 7) / 8)
    | none, .addrmap => extent children
    | none, .regfile => extent children

/-- The farthest end of the nodes of a list. -/
def extent : List Node → Nat
  | [] => 0
  | child :: rest => max (child.offset + (child.lead + child.bytes)) (extent rest)

end

/-- The bytes that all elements span. -/
def totalBytes (n : Node) : Nat := n.lead + n.bytes

mutual

/-- How far behind a node its farthest element below lies. -/
def reach : Node → Nat
  | { children, .. } => reachAll children

/-- How far behind the parent of some nodes the farthest element from them downwards lies. -/
def reachAll : List Node → Nat
  | [] => 0
  | child :: rest => max (child.offset + child.lead + child.reach) (reachAll rest)

end

mutual

/-- A node and all nodes below it. -/
def subtree : Node → List Node
  | n@{ children, .. } => n :: subtreeAll children

def subtreeAll : List Node → List Node
  | [] => []
  | child :: rest => child.subtree ++ subtreeAll rest

end

/-- Every node ends within the address space that starts at it, and the last element
of a walk has an address. -/
def FitsAddressSpace (n : Node) : Prop :=
  (∀ m ∈ n.subtree, m.totalBytes < Word.limit) ∧ n.offset + n.reach < Word.limit

instance (n : Node) : Decidable n.FitsAddressSpace :=
  inferInstanceAs (Decidable ((∀ m ∈ n.subtree, m.totalBytes < Word.limit) ∧ _))

theorem subtree_eq (n : Node) : n.subtree = n :: n.children.flatMap subtree := by
  have hall (nodes : List Node) : subtreeAll nodes = nodes.flatMap subtree := by
    induction nodes with
    | nil => rfl
    | cons child rest ih => rw [subtreeAll, ih, List.flatMap_cons]
  cases n
  rw [subtree, hall]

theorem mem_subtree_self (n : Node) : n ∈ n.subtree := by
  rw [subtree_eq]
  exact List.mem_cons_self

theorem mem_subtree_of_child {n child m : Node} (hchild : child ∈ n.children)
    (hm : m ∈ child.subtree) : m ∈ n.subtree := by
  rw [subtree_eq]
  exact List.mem_cons_of_mem n (List.mem_flatMap.2 ⟨child, hchild, hm⟩)

theorem IsValid.of_mem_subtree {n m : Node} (h : n.IsValid) (hm : m ∈ n.subtree) :
    m.IsValid := by
  induction n using Node.induction with
  | step n ih =>
    rw [subtree_eq, List.mem_cons, List.mem_flatMap] at hm
    rcases hm with rfl | ⟨child, hchild, hm⟩
    · exact h
    · exact ih child hchild (h.child hchild) hm

end Node

/-! Sizes. -/

/-- A partial result that is the exact one, as far as either is a word. -/
def Word.Agrees (partially : Option Nat) (exact : Nat) : Prop :=
  ∀ word < Word.limit, partially = some word ↔ exact = word

theorem Word.Agrees.exists_iff {partially : Option Nat} {exact : Nat}
    (h : Word.Agrees partially exact) :
    (∃ word < Word.limit, partially = some word) ↔ exact < Word.limit := by
  constructor
  · rintro ⟨word, hword, hpartially⟩
    rwa [(h word hword).1 hpartially]
  · intro hexact
    exact ⟨exact, hexact, (h exact hexact).2 rfl⟩

namespace Node

theorem agrees_totalSize? {n : Node} (h : n.IsValid) (hsize : Word.Agrees n.size? n.bytes) :
    Word.Agrees n.totalSize? n.totalBytes := by
  intro word hword
  unfold totalSize? totalBytes lead elementStride elementCount span?
  cases harray : n.array with
  | none => simpa [Option.bind_some] using hsize word hword
  | some a =>
    have hsound := h.array_isSound harray
    have hcount : Word.product? a.dimensions = some a.count := hsound.checkedCount?_eq
    have hbetween : Word.mul? a.stride (a.count - 1) = some (a.stride * (a.count - 1)) :=
      Word.mul?_eq_some_iff.2 ⟨rfl, hsound.between_lt⟩
    simp only [hcount, hbetween, Option.bind_eq_bind, Option.bind_some,
      Option.bind_eq_some_iff, Word.add?_eq_some_iff, Option.map_some, Option.getD_some]
    constructor
    · rintro ⟨size, hpartially, heq, _⟩
      rw [(hsize size (by omega)).1 hpartially, heq]
    · intro heq
      exact ⟨n.bytes, (hsize n.bytes (by omega)).2 rfl, heq, by omega⟩

theorem agrees_extent? {nodes : List Node}
    (h : ∀ c ∈ nodes, Word.Agrees c.totalSize? c.totalBytes) :
    Word.Agrees (extent? nodes) (extent nodes) := by
  induction nodes with
  | nil => simp [Word.Agrees, extent?, extent]
  | cons child rest ih =>
    intro word hword
    have hchild := h child List.mem_cons_self
    have hrest := ih fun c hc => h c (List.mem_cons_of_mem child hc)
    have hsplit : extent? (child :: rest) = some word ↔
        ∃ total, child.totalSize? = some total ∧ child.offset + total < Word.limit ∧
          ∃ others, extent? rest = some others ∧ max (child.offset + total) others = word := by
      rw [extent?, totalSize?]
      simp only [Option.bind_eq_bind, Option.bind_eq_some_iff, Word.add?_eq_some_iff,
        Option.some.injEq]
      grind
    rw [hsplit, extent]
    constructor
    · rintro ⟨total, htotal, hend, others, hothers, heq⟩
      have hbytes := (hchild total (by omega)).1 htotal
      have hextent := (hrest others (by omega)).1 hothers
      rw [totalBytes] at hbytes
      rw [hbytes, hextent, heq]
    · intro heq
      have htotal : child.offset + child.totalBytes < Word.limit := by
        rw [totalBytes]
        omega
      refine ⟨child.totalBytes, (hchild _ (by omega)).2 rfl, htotal,
        extent rest, (hrest _ (by omega)).2 rfl, heq⟩

theorem agrees_size? {n : Node} (h : n.IsValid) : Word.Agrees n.size? n.bytes := by
  induction n using Node.induction with
  | step n ih =>
    have hextent : Word.Agrees (extent? n.children) (extent n.children) :=
      agrees_extent? fun c hc => agrees_totalSize? (h.child hc) (ih c hc (h.child hc))
    intro word hword
    cases n with
    | mk name kind offset size array properties children fields source =>
      cases size with
      | some given => simp [size?, bytes]
      | none =>
        cases kind with
        | reg => simp [size?, bytes]
        | mem =>
          simp only [size?, bytes, Word.mul?_eq_some_iff]
          omega
        | addrmap => exact hextent word hword
        | regfile => exact hextent word hword

end Node

/-! Addresses. -/

namespace Node

theorem add_reachAll_lt_iff {nodes : List Node} {address : Nat} (haddress : address < Word.limit) :
    address + reachAll nodes < Word.limit ↔
      ∀ c ∈ nodes, address + (c.offset + c.lead + c.reach) < Word.limit := by
  induction nodes with
  | nil => simpa [reachAll] using haddress
  | cons child rest ih =>
    rw [reachAll, List.forall_mem_cons, ← ih]
    omega

theorem reach_eq (n : Node) : n.reach = reachAll n.children := by
  cases n
  rw [reach]

theorem le_reachAll_of_mem {nodes : List Node} {child : Node} (h : child ∈ nodes) :
    child.offset + child.lead + child.reach ≤ reachAll nodes := by
  induction nodes with
  | nil => cases h
  | cons other rest ih =>
    rw [reachAll]
    rcases List.mem_cons.1 h with rfl | hrest
    · exact Nat.le_max_left _ _
    · exact Nat.le_trans (ih hrest) (Nat.le_max_right _ _)

end Node

namespace Element

variable {options : WalkOptions}

/-- No element of a child lies behind its last one. -/
theorem address_le_of_mem_ofChild {parent c : Element} {child : Node}
    (hc : c ∈ parent.ofChild options child) :
    c.address ≤ parent.address + child.offset + child.lead := by
  obtain ⟨number, hnumber, rfl⟩ := List.mem_map.1 hc
  rw [List.mem_range] at hnumber
  unfold nth Node.metShape?
  by_cases hunroll : options.unroll = true
  · cases harray : child.array with
    | none => simp [hunroll, whole]
    | some a =>
      have hcount : number ≤ a.count - 1 := by
        unfold Node.metCount Node.metShape? at hnumber
        simp only [hunroll, harray, if_true, Option.map_some, Option.getD_some] at hnumber
        split at hnumber <;> omega
      have hlead : number * a.stride ≤ child.lead := by
        simpa [Node.lead, Node.elementStride, Node.elementCount, harray, Nat.mul_comm a.stride]
          using Nat.mul_le_mul_right a.stride hcount
      simpa [hunroll, item, elementAddress] using hlead
  · simp [hunroll, whole]

/-- The last element of a child. -/
theorem exists_last_mem_ofChild (parent : Element) {child : Node} (h : child.IsValid) :
    ∃ c ∈ parent.ofChild { unroll := true } child,
      c.address = parent.address + child.offset + child.lead := by
  cases harray : child.array with
  | none =>
    refine ⟨parent.whole child, ?_, ?_⟩
    · simp [ofChild, Node.metCount, Node.metShape?, nth, harray]
    · simp [whole, Node.lead, Node.elementStride, harray]
  | some a =>
    have hlast : a.count - 1 < a.count := Nat.sub_one_lt_of_lt (h.array_isSound harray).count_pos
    refine ⟨parent.nth { unroll := true } child (a.count - 1), ?_, ?_⟩
    · apply List.mem_map_of_mem
      simpa [Node.metCount, Node.metShape?, harray] using hlast
    · simp [nth, Node.metShape?, item, elementAddress, Node.lead, Node.elementStride,
        Node.elementCount, harray, Nat.mul_comm a.stride]

theorem address_add_reach_le {parent c : Element} (hc : c ∈ parent.children options) :
    c.address + c.node.reach ≤ parent.address + parent.node.reach := by
  obtain ⟨child, hchild, hmem⟩ := List.mem_flatMap.1 hc
  have haddress := address_le_of_mem_ofChild hmem
  have hreach := Node.le_reachAll_of_mem hchild
  rw [node_of_mem_ofChild hmem, parent.node.reach_eq]
  omega

/-- The addresses from an element downwards are words if the farthest one is. -/
theorem forall_address_lt_iff {e : Element} (h : e.node.IsValid) :
    (∀ q ∈ preorder { unroll := true } e.node e, q.address < Word.limit) ↔
      e.address + e.node.reach < Word.limit := by
  induction e using Element.induction { unroll := true } with
  | step e ih =>
    rw [preorder_eq]
    simp only [List.forall_mem_cons, List.mem_flatMap]
    constructor
    · rintro ⟨haddress, hbelow⟩
      rw [Node.reach_eq, Node.add_reachAll_lt_iff haddress]
      intro child hchild
      obtain ⟨c, hc, hlast⟩ := e.exists_last_mem_ofChild (h.child hchild)
      have hmem : c ∈ e.children { unroll := true } := List.mem_flatMap.2 ⟨child, hchild, hc⟩
      have hreach := (ih c hmem (isValid_of_mem_children h hmem)).1
        fun q hq => hbelow q ⟨c, hmem, hq⟩
      rw [node_of_mem_ofChild hc] at hreach
      omega
    · intro hreach
      refine ⟨by omega, ?_⟩
      rintro q ⟨c, hc, hq⟩
      have hle := address_add_reach_le hc
      exact (ih c hc (isValid_of_mem_children h hc)).2 (by omega) q hq

end Element

/-! Both together. -/

/-- A valid map fits exactly if all its sizes and all addresses of its unrolled walk
are words. -/
theorem Node.fitsAddressSpace_iff {n : Node} (h : n.IsValid) :
    n.FitsAddressSpace ↔
      (∀ m ∈ n.subtree, (∃ size < Word.limit, m.size? = some size) ∧
        ∃ total < Word.limit, m.totalSize? = some total) ∧
      ∀ e ∈ Element.allBelow { unroll := true } n, e.address < Word.limit := by
  have hsizes : ∀ m ∈ n.subtree, ((∃ size < Word.limit, m.size? = some size) ∧
      ∃ total < Word.limit, m.totalSize? = some total) ↔ m.totalBytes < Word.limit := by
    intro m hm
    have hvalid := h.of_mem_subtree hm
    have hsize := agrees_size? hvalid
    rw [hsize.exists_iff, (agrees_totalSize? hvalid hsize).exists_iff]
    unfold totalBytes
    omega
  have haddresses : (∀ e ∈ Element.allBelow { unroll := true } n, e.address < Word.limit) ↔
      n.offset + n.reach < Word.limit :=
    Element.forall_address_lt_iff (e := .top n) h
  rw [haddresses, forall₂_congr hsizes, FitsAddressSpace]

end RegisterMap
