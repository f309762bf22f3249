import Mathlib.Data.List.Forall2
import Mathlib.Tactic.Common
import RegisterMap.Html.Emitter
import RegisterMap.Proofs.Walk

/-!
The index of a reference as a tree with numbers. Elements are numbered in pre-order, an
entry names the number of its parent and those of its children, and the page of a
container has a row for each child. Entries that are documented like this say who is
whose child in two ways, and the two agree.
-/

namespace RegisterMap

/-- Some elements, each with all that is met below it. -/
def Element.forest (options : WalkOptions) (es : List Element) : List Element :=
  es.flatMap fun e => preorder options e.node e

theorem Element.forest_cons (options : WalkOptions) (e : Element) (rest : List Element) :
    forest options (e :: rest) =
      e :: (forest options (e.children options) ++ forest options rest) := by
  rw [forest, List.flatMap_cons, preorder_eq, List.cons_append]
  rfl

theorem Element.forest_append (options : WalkOptions) (first second : List Element) :
    forest options (first ++ second) = forest options first ++ forest options second :=
  List.flatMap_append

theorem Element.forest_top (options : WalkOptions) (top : Node) :
    forest options [.top top] = allBelow options top :=
  List.flatMap_singleton _ _

namespace Html

variable {options : WalkOptions}

/-! Numbers. -/

/-- The numbers of some elements, each followed by those of all below it. -/
def numbers (options : WalkOptions) (first : Nat) : List Element → List Nat
  | [] => []
  | e :: rest => first :: numbers options (first + (Element.forest options [e]).length) rest

theorem numbers_append (first : Nat) (es es' : List Element) :
    numbers options first (es ++ es') =
      numbers options first es ++
        numbers options (first + (Element.forest options es).length) es' := by
  induction es generalizing first with
  | nil => rfl
  | cons e rest ih =>
    have hlength : (Element.forest options (e :: rest)).length =
        (Element.forest options [e]).length + (Element.forest options rest).length := by
      rw [← List.singleton_append, Element.forest_append, List.length_append]
    rw [List.cons_append, numbers, ih, numbers, hlength, Nat.add_assoc]
    rfl

/-- The entry of an element before its fields are put in. -/
def entryOf (options : WalkOptions) (parent : Option Nat) (id : Nat) (e : Element) (size : Nat) :
    IndexEntry where
  parent
  children := (numbers options (id + 1) (e.children options)).toArray
  name := e.node.name
  offset := e.offset
  size
  array := e.node.array.map fun shape => (shape.dimensions, shape.stride)
  fields := none

/-- A page that has a row for each child, with its number, if it is that of a container. -/
def ListsChildren (options : WalkOptions) (id : Nat) (e : Element) (size : Nat)
    (page : String) : Prop :=
  e.node.kind = .addrmap ∨ e.node.kind = .regfile →
    ∃ desc, page = Markup.renderAll (containerPage e size desc
      (childRows (e.children options) (numbers options (id + 1) (e.children options)).toArray))

/-- The entries and the pages of some elements under a parent and of all below them, which
have the numbers from a first one on. A page follows those of all below its element. -/
inductive Documents (options : WalkOptions) :
    Option Nat → Nat → List Element → List IndexEntry → List (Nat × String) → Prop
  | nil (parent : Option Nat) (id : Nat) : Documents options parent id [] [] []
  | cons {parent : Option Nat} {id size : Nat} {e : Element} {rest : List Element}
      {inner others : List IndexEntry} {innerPages otherPages : List (Nat × String)}
      {page : String} (size_eq : e.node.size? = some size)
      (lists : ListsChildren options id e size page)
      (below : Documents options (some id) (id + 1) (e.children options) inner innerPages)
      (beside : Documents options parent (id + 1 + inner.length) rest others otherPages) :
      Documents options parent id (e :: rest)
        (entryOf options parent id e size :: (inner ++ others))
        (innerPages ++ (id, page) :: otherPages)

/-- The numbers of the entries of a list that have a certain parent. -/
def childrenOf (parent first : Nat) (entries : List IndexEntry) : List Nat :=
  ((entries.zipIdx first).filter fun entry => entry.1.parent = some parent).map Prod.snd

theorem childrenOf_append (parent first : Nat) (entries others : List IndexEntry) :
    childrenOf parent first (entries ++ others) =
      childrenOf parent first entries ++ childrenOf parent (first + entries.length) others := by
  simp [childrenOf, List.zipIdx_append]

theorem childrenOf_cons (parent first : Nat) (entry : IndexEntry) (entries : List IndexEntry) :
    childrenOf parent first (entry :: entries) =
      (if entry.parent = some parent then [first] else []) ++
        childrenOf parent (first + 1) entries := by
  by_cases h : entry.parent = some parent <;> simp [childrenOf, h]

namespace Documents

variable {parent : Option Nat} {id : Nat} {es es' : List Element}
  {entries entries' : List IndexEntry} {pages pages' : List (Nat × String)}

theorem length_eq (h : Documents options parent id es entries pages) :
    entries.length = (Element.forest options es).length := by
  induction h with
  | nil => rfl
  | cons _ _ _ _ ihBelow ihBeside =>
    rw [Element.forest_cons, List.length_cons, List.length_cons, List.length_append,
      List.length_append, ihBelow, ihBeside]

theorem append (h : Documents options parent id es entries pages)
    (h' : Documents options parent (id + entries.length) es' entries' pages') :
    Documents options parent id (es ++ es') (entries ++ entries') (pages ++ pages') := by
  induction h with
  | nil => exact h'
  | cons size_eq lists below _ _ ihBeside =>
    rw [List.length_cons, List.length_append] at h'
    have hrest := ihBeside (by convert h' using 1; omega)
    have hall := Documents.cons size_eq lists below hrest
    simpa only [List.cons_append, List.append_assoc] using hall

/-- An element of a forest is one of its roots, or it lies right below the element with the
number of its parent. -/
theorem placed (h : Documents options parent id es entries pages) :
    ∀ numbered ∈ ((Element.forest options es).zip entries).zipIdx id,
      (numbered.1.2.parent = parent ∧ numbered.1.1 ∈ es) ∨
        ∃ p f, numbered.1.2.parent = some p ∧ p < numbered.2 ∧
          (f, p) ∈ (Element.forest options es).zipIdx id ∧ numbered.1.1 ∈ f.children options := by
  induction h with
  | nil => simp
  | @cons parent id size e rest inner others innerPages otherPages page _ _ below beside
      ihBelow ihBeside =>
    have hlength : (Element.forest options (e.children options)).length = inner.length :=
      below.length_eq.symm
    rw [Element.forest_cons, List.zip_cons_cons, List.zip_append hlength, List.zipIdx_cons,
      List.zipIdx_append, List.length_zip, hlength, Nat.min_self, List.zipIdx_cons,
      List.zipIdx_append, hlength]
    intro numbered hnumbered
    rcases List.mem_cons.1 hnumbered with rfl | hnumbered
    · exact Or.inl ⟨rfl, List.mem_cons_self⟩
    rcases List.mem_append.1 hnumbered with hinner | hother
    · obtain ⟨hfirst, _⟩ := List.mem_zipIdx hinner
      rcases ihBelow numbered hinner with ⟨heq, hmem⟩ | ⟨p, f, heq, hlt, hf, hmem⟩
      · exact Or.inr ⟨id, e, heq, hfirst, List.mem_cons_self, hmem⟩
      · exact Or.inr ⟨p, f, heq, hlt, List.mem_cons_of_mem _ (List.mem_append_left _ hf), hmem⟩
    · rcases ihBeside numbered hother with ⟨heq, hmem⟩ | ⟨p, f, heq, hlt, hf, hmem⟩
      · exact Or.inl ⟨heq, List.mem_cons_of_mem _ hmem⟩
      · exact Or.inr ⟨p, f, heq, hlt, List.mem_cons_of_mem _ (List.mem_append_right _ hf), hmem⟩

/-- The parent of an entry is the common one, or has a smaller number. -/
theorem parent_cases (h : Documents options parent id es entries pages) :
    ∀ entry ∈ entries.zipIdx id, entry.1.parent = parent ∨
      ∃ p, entry.1.parent = some p ∧ id ≤ p ∧ p < entry.2 := by
  intro entry hentry
  obtain ⟨hfirst, hentry⟩ := List.mem_zipIdx_iff_le_and_getElem?_sub.1 hentry
  obtain ⟨hplace, _⟩ := List.getElem?_eq_some_iff.1 hentry
  have helement := List.getElem?_eq_getElem (h.length_eq ▸ hplace)
  rcases h.placed ((_, entry.1), entry.2) (List.mem_zipIdx_iff_le_and_getElem?_sub.2
    ⟨hfirst, List.getElem?_zip_eq_some.2 ⟨helement, hentry⟩⟩) with
    ⟨heq, _⟩ | ⟨p, f, heq, hlt, hf, _⟩
  · exact Or.inl heq
  · exact Or.inr ⟨p, heq, (List.mem_zipIdx hf).1, hlt⟩

/-- A number outside is the parent of no entry, unless it is the common parent. -/
theorem childrenOf_eq_nil (h : Documents options parent id es entries pages) {p : Nat}
    (hparent : parent ≠ some p) (hp : p < id ∨ id + entries.length ≤ p) :
    childrenOf p id entries = [] := by
  rw [childrenOf, List.map_eq_nil_iff, List.filter_eq_nil_iff]
  intro entry hentry
  obtain ⟨_, hlast, _⟩ := List.mem_zipIdx hentry
  rw [decide_eq_true_eq]
  rcases h.parent_cases entry hentry with heq | ⟨q, heq, hle, hlt⟩
  · exact heq ▸ hparent
  · rw [heq, Option.some.injEq]
    omega

/-- The children of the common parent are the elements themselves. -/
theorem childrenOf_parent {p : Nat} (h : Documents options (some p) id es entries pages)
    (hp : p < id) : childrenOf p id entries = numbers options id es := by
  generalize hparent : some p = parent at h
  induction h with
  | nil => rfl
  | @cons parent id size e rest inner others innerPages otherPages page _ _ below beside _
      ihBeside =>
    have hinner : childrenOf p (id + 1) inner = [] :=
      below.childrenOf_eq_nil (by simp; omega) (Or.inl (by omega))
    have hnext : id + 1 + inner.length = id + (Element.forest options [e]).length := by
      rw [below.length_eq, Element.forest_cons, List.length_cons, List.length_append]
      simp [Element.forest]
      omega
    have hothers := ihBeside (by omega) hparent
    rw [childrenOf_cons, childrenOf_append, hinner, hothers, hnext, numbers, entryOf, ← hparent]
    simp

/-- The children that an entry names are those whose parent it is. -/
theorem children_eq (h : Documents options parent id es entries pages)
    (hparent : ∀ p, parent = some p → p < id) :
    ∀ entry ∈ entries.zipIdx id, entry.1.children.toList = childrenOf entry.2 id entries := by
  induction h with
  | nil => simp
  | @cons parent id size e rest inner others innerPages otherPages page _ _ below beside
      ihBelow ihBeside =>
    have hnotParent {p : Nat} (hp : id ≤ p) : parent ≠ some p := fun heq => by
      have hlt := hparent p heq
      omega
    rw [List.zipIdx_cons, List.zipIdx_append]
    intro entry hentry
    rw [childrenOf_cons, childrenOf_append]
    rcases List.mem_cons.1 hentry with rfl | hentry
    · have hothers : childrenOf id (id + 1 + inner.length) others = [] :=
        beside.childrenOf_eq_nil (hnotParent (Nat.le_refl id)) (Or.inl (by omega))
      rw [below.childrenOf_parent (Nat.lt_succ_self id), hothers]
      simp [entryOf, hnotParent (Nat.le_refl id)]
    rcases List.mem_append.1 hentry with hinner | hother
    · obtain ⟨hfirst, hlast, _⟩ := List.mem_zipIdx hinner
      have hothers : childrenOf entry.2 (id + 1 + inner.length) others = [] :=
        beside.childrenOf_eq_nil (hnotParent (by omega)) (Or.inl hlast)
      rw [hothers, ihBelow (fun p heq => by cases heq; omega) entry hinner]
      simp [entryOf, hnotParent (Nat.le_of_succ_le hfirst)]
    · obtain ⟨hfirst, _⟩ := List.mem_zipIdx hother
      have hinner : childrenOf entry.2 (id + 1) inner = [] :=
        below.childrenOf_eq_nil (by simp; omega) (Or.inr hfirst)
      have hlater : ∀ p, parent = some p → p < id + 1 + inner.length := fun p heq =>
        Nat.lt_of_lt_of_le (hparent p heq) (by omega)
      rw [hinner, ihBeside hlater entry hother]
      simp [entryOf, hnotParent (by omega : id ≤ entry.2)]

/-- Every element has its entry and its page under its number. -/
theorem documented (h : Documents options parent id es entries pages) :
    ∀ numbered ∈ ((Element.forest options es).zip entries).zipIdx id, ∃ parent size page,
      numbered.1.1.node.size? = some size ∧
        numbered.1.2 = entryOf options parent numbered.2 numbered.1.1 size ∧
        (numbered.2, page) ∈ pages ∧
        ListsChildren options numbered.2 numbered.1.1 size page := by
  induction h with
  | nil => simp
  | @cons parent id size e rest inner others innerPages otherPages page size_eq lists below beside
      ihBelow ihBeside =>
    have hlength : (Element.forest options (e.children options)).length = inner.length :=
      below.length_eq.symm
    rw [Element.forest_cons, List.zip_cons_cons, List.zip_append hlength, List.zipIdx_cons,
      List.zipIdx_append, List.length_zip, hlength, Nat.min_self]
    intro numbered hnumbered
    rcases List.mem_cons.1 hnumbered with rfl | hnumbered
    · exact ⟨parent, size, page, size_eq, rfl, by simp, lists⟩
    rcases List.mem_append.1 hnumbered with hinner | hother
    · obtain ⟨p, size, page, hsize, hentry, hpage, hlists⟩ := ihBelow numbered hinner
      exact ⟨p, size, page, hsize, hentry, by simp [hpage], hlists⟩
    · obtain ⟨p, size, page, hsize, hentry, hpage, hlists⟩ := ihBeside numbered hother
      exact ⟨p, size, page, hsize, hentry, by simp [hpage], hlists⟩

/-- Each number has one page. -/
theorem pages_perm (h : Documents options parent id es entries pages) :
    (pages.map Prod.fst).Perm (List.range' id entries.length) := by
  induction h with
  | nil => exact .nil
  | @cons parent id size e rest inner others innerPages otherPages page _ _ _ _ ihBelow ihBeside =>
    rw [List.length_cons, List.length_append, List.range'_succ, ← List.range'_append_1,
      List.map_append, List.map_cons]
    exact List.perm_middle.trans ((ihBelow.append ihBeside).cons id)

theorem nodup_numbers (h : Documents options parent id es entries pages) :
    (pages.map Prod.fst).Nodup :=
  h.pages_perm.nodup_iff.2 (List.nodup_range' 1)

end Documents

end Html

end RegisterMap
