import Mathlib.Algebra.Group.Nat.Defs
import Mathlib.Tactic.Common
import RegisterMap.Proofs.FieldOverlap
import RegisterMap.Proofs.Walk

/-!
What a tree that keeps the invariants gives to a proof. Validity is handed down
from a node to its children, whatever the path is that an error would name, so
it holds of every element that a walk meets.
-/

namespace RegisterMap

theorem Except.bind_eq_ok_iff {ε α β : Type} {x : Except ε α} {f : α → Except ε β} {b : β} :
    (x >>= f) = .ok b ↔ ∃ a, x = .ok a ∧ f a = .ok b := by
  cases x with
  | error e => simp [bind, Except.bind]
  | ok a => simp [bind, Except.bind]

/-- Of two checks in a row both have to pass. -/
theorem Except.andThen_eq_ok_iff {ε : Type} {x y : Except ε Unit} :
    (x >>= fun _ => y) = .ok () ↔ x = .ok () ∧ y = .ok () := by
  rw [Except.bind_eq_ok_iff]
  constructor
  · rintro ⟨_, hx, hy⟩
    exact ⟨hx, hy⟩
  · rintro ⟨hx, hy⟩
    exact ⟨(), hx, hy⟩

namespace Word

theorem foldlM_mul?_eq_some {start c : Nat} {factors : List Nat} (hstart : start < limit)
    (h : factors.foldlM mul? start = some c) : start * factors.prod = c ∧ c < limit := by
  induction factors generalizing start with
  | nil =>
    have heq : start = c := by simpa using h
    exact ⟨by simp [heq], heq ▸ hstart⟩
  | cons factor rest ih =>
    rw [List.foldlM_cons] at h
    obtain ⟨product, hproduct, hrest⟩ := Option.bind_eq_some_iff.1 h
    obtain ⟨heq, hlt⟩ := mul?_eq_some_iff.1 hproduct
    obtain ⟨hc, hcLt⟩ := ih (heq ▸ hlt) hrest
    exact ⟨by rw [List.prod_cons, ← Nat.mul_assoc, heq, hc], hcLt⟩

/-- A product that is found is the exact one, and a word. -/
theorem product?_eq_some {factors : List Nat} {c : Nat} (h : product? factors = some c) :
    factors.prod = c ∧ c < limit := by
  have hproduct := foldlM_mul?_eq_some (by decide : 1 < limit) h
  rwa [Nat.one_mul] at hproduct

/-- Factors of one at least have a product exactly if it is a word: no part of it is larger. -/
theorem foldlM_mul?_of_pos {factors : List Nat} (hpos : ∀ factor ∈ factors, 1 ≤ factor)
    {start : Nat} (h : start * factors.prod < limit) :
    factors.foldlM mul? start = some (start * factors.prod) := by
  induction factors generalizing start with
  | nil => simp
  | cons factor rest ih =>
    obtain ⟨_, hrest⟩ := List.forall_mem_cons.1 hpos
    have hprod : 1 ≤ rest.prod := List.prod_pos_iff_forall_pos_nat.2 hrest
    rw [List.prod_cons, ← Nat.mul_assoc] at h ⊢
    have hfirst : start * factor < limit := Nat.lt_of_le_of_lt (Nat.le_mul_of_pos_right _ hprod) h
    rw [List.foldlM_cons, mul?_eq_some_iff.2 ⟨rfl, hfirst⟩]
    exact ih hrest h

theorem product?_of_pos {factors : List Nat} (hpos : ∀ factor ∈ factors, 1 ≤ factor)
    (h : factors.prod < limit) : product? factors = some factors.prod := by
  have hstart : 1 * factors.prod < limit := by rwa [Nat.one_mul]
  have hproduct := foldlM_mul?_of_pos hpos hstart
  rwa [Nat.one_mul] at hproduct

end Word

namespace ArrayShape

/-- A valid array has as many elements as the product of its dimensions says. -/
structure IsSound (a : ArrayShape) : Prop where
  dimensions_ne_nil : a.dimensions ≠ []
  checkedCount?_eq : a.checkedCount? = some a.count
  count_eq : a.count = a.dimensions.prod
  count_pos : 0 < a.count
  count_lt : a.count < Word.limit
  between_lt : a.stride * (a.count - 1) < Word.limit

theorem isSound_of_isValid {a : ArrayShape} (h : a.isValid = true) : a.IsSound := by
  unfold isValid at h
  split at h
  case h_1 => cases h
  case h_2 count hcount =>
    have heq : a.count = count := by rw [ArrayShape.count, hcount, Option.getD_some]
    obtain ⟨hproduct, hlt⟩ := Word.product?_eq_some hcount
    simp only [Bool.and_eq_true, Bool.not_eq_true', List.isEmpty_eq_false_iff,
      decide_eq_true_eq, Word.mul?, Word.isSome_ofNat?_iff] at h
    obtain ⟨⟨hne, hpos⟩, hbetween⟩ := h
    exact ⟨hne, heq ▸ hcount, heq.trans hproduct.symm, heq ▸ hpos, heq ▸ hlt, heq ▸ hbetween⟩

theorem IsSound.dimension_pos {a : ArrayShape} (h : a.IsSound) {d : Nat}
    (hd : d ∈ a.dimensions) : 0 < d := by
  have hpos : 0 < a.dimensions.prod := h.count_eq ▸ h.count_pos
  exact List.prod_pos_iff_forall_pos_nat.1 hpos d hd

end ArrayShape

theorem Field.check_eq_ok {f : Field} {path : String} {width : Nat}
    (h : f.check path width = .ok ()) : f.lsb ≤ f.msb ∧ f.msb < width := by
  unfold Field.check at h
  by_cases hrange : f.msb < f.lsb ∨ width ≤ f.msb
  · simp only [hrange, if_true] at h
    cases h
  · omega

theorem checkFields_eq_ok {path : String} {width : Nat} {fields : List Field}
    (h : checkFields path width fields = .ok ()) : ∀ f ∈ fields, f.check path width = .ok () := by
  induction fields with
  | nil => simp
  | cons f rest ih =>
    rw [checkFields, Except.andThen_eq_ok_iff] at h
    exact List.forall_mem_cons.2 ⟨h.1, ih h.2⟩

namespace Node

theorem validateAt_eq (path : String) (n : Node) :
    n.validateAt path = (do
      n.checkArray path
      match n.kind with
      | .reg => n.checkRegister path
      | .mem => n.checkMemory path
      | .addrmap | .regfile => do
        n.checkNoFields path
        validateAll path n.children) := by
  cases n with
  | mk name kind offset size array properties children fields source =>
    refine (validateAt.eq_def path _).trans ?_
    cases kind <;> rfl

theorem validateAll_eq_ok_iff {path : String} {children : List Node} :
    validateAll path children = .ok () ↔
      ∀ c ∈ children, c.validateAt (childPath path c.name) = .ok () := by
  induction children with
  | nil => simp [validateAll]
  | cons child rest ih =>
    rw [validateAll, Except.andThen_eq_ok_iff, ih, List.forall_mem_cons]

theorem checkRegister_eq_ok_iff {n : Node} {path : String} :
    n.checkRegister path = .ok () ↔
      n.children = [] ∧ checkRegWidth n.properties path = .ok () ∧
        checkWidth n.properties path "accesswidth" = .ok () ∧
          checkFields path n.regWidth n.fields = .ok () ∧ n.fields.Pairwise Field.IsApart := by
  have hoverlap (hfields : checkFields path n.regWidth n.fields = .ok ()) :
      checkOverlap path n.fields = .ok () ↔ n.fields.Pairwise Field.IsApart :=
    checkOverlap_eq_ok_iff path fun f hf => (Field.check_eq_ok (checkFields_eq_ok hfields f hf)).1
  rw [← and_congr_right hoverlap]
  unfold checkRegister
  cases hchildren : n.children with
  | nil => simp [Except.andThen_eq_ok_iff]
  | cons child rest => simp [Except.bind_eq_ok_iff, throw, throwThe, MonadExceptOf.throw]

theorem checkMemory_eq_ok_iff {n : Node} {path : String} :
    n.checkMemory path = .ok () ↔
      n.children = [] ∧ n.fields = [] ∧ checkWidth n.properties path "memwidth" = .ok () ∧
        checkWord SoftwareAccess.ofWord? n.properties path "sw" = .ok () := by
  unfold checkMemory
  cases hchildren : n.children with
  | nil =>
    cases hfields : n.fields with
    | nil => simp [Except.andThen_eq_ok_iff]
    | cons f rest => simp [Except.bind_eq_ok_iff, throw, throwThe, MonadExceptOf.throw]
  | cons child rest => simp [Except.bind_eq_ok_iff, throw, throwThe, MonadExceptOf.throw]

theorem validateAt_eq_ok_iff_of_register {n : Node} {path : String} (hkind : n.kind = .reg) :
    n.validateAt path = .ok () ↔ n.checkArray path = .ok () ∧ n.checkRegister path = .ok () := by
  rw [validateAt_eq, hkind, Except.andThen_eq_ok_iff]

/-- A register is valid whose fields may stand in any order but share no bit. -/
theorem validateAt_register {n : Node} {path : String} (hkind : n.kind = .reg)
    (harray : n.checkArray path = .ok ()) (hchildren : n.children = [])
    (hchecks : checkRegWidth n.properties path = .ok () ∧
      checkWidth n.properties path "accesswidth" = .ok () ∧
        checkFields path n.regWidth n.fields = .ok ())
    (hapart : n.fields.Pairwise Field.IsApart) : n.validateAt path = .ok () := by
  obtain ⟨hregWidth, haccessWidth, hfields⟩ := hchecks
  refine (validateAt_eq_ok_iff_of_register hkind).2 ⟨harray, ?_⟩
  exact checkRegister_eq_ok_iff.2 ⟨hchildren, hregWidth, haccessWidth, hfields, hapart⟩

theorem validateAt_eq_ok_iff_of_container {n : Node} {path : String}
    (hkind : n.kind = .addrmap ∨ n.kind = .regfile) :
    n.validateAt path = .ok () ↔
      n.checkArray path = .ok () ∧ n.checkNoFields path = .ok () ∧
        ∀ c ∈ n.children, c.validateAt (childPath path c.name) = .ok () := by
  rw [validateAt_eq, Except.andThen_eq_ok_iff, ← validateAll_eq_ok_iff]
  rcases hkind with hkind | hkind
  · rw [hkind, Except.andThen_eq_ok_iff]
  · rw [hkind, Except.andThen_eq_ok_iff]

/-- A node that keeps the invariants at some path. -/
def IsValid (n : Node) : Prop := ∃ path, n.validateAt path = .ok ()

theorem isValid_of_validate {n : Node} (h : n.validate = .ok ()) : n.IsValid := ⟨n.name, h⟩

namespace IsValid

variable {n : Node}

theorem array_isSound (h : n.IsValid) {a : ArrayShape} (ha : n.array = some a) : a.IsSound := by
  obtain ⟨path, hpath⟩ := h
  rw [validateAt_eq, Except.andThen_eq_ok_iff] at hpath
  have harray := hpath.1
  rw [checkArray, ha] at harray
  by_cases hvalid : a.isValid = true
  · exact ArrayShape.isSound_of_isValid hvalid
  · simp [hvalid] at harray

theorem checkRegister_eq_ok (h : n.IsValid) (hkind : n.kind = .reg) :
    ∃ path, n.checkRegister path = .ok () := by
  obtain ⟨path, hpath⟩ := h
  exact ⟨path, ((validateAt_eq_ok_iff_of_register hkind).1 hpath).2⟩

theorem checkMemory_eq_ok (h : n.IsValid) (hkind : n.kind = .mem) :
    ∃ path, n.checkMemory path = .ok () := by
  obtain ⟨path, hpath⟩ := h
  rw [validateAt_eq, Except.andThen_eq_ok_iff, hkind] at hpath
  exact ⟨path, hpath.2⟩

theorem children_of_register (h : n.IsValid) (hkind : n.kind = .reg) : n.children = [] := by
  obtain ⟨path, hpath⟩ := h.checkRegister_eq_ok hkind
  exact (checkRegister_eq_ok_iff.1 hpath).1

theorem children_of_memory (h : n.IsValid) (hkind : n.kind = .mem) : n.children = [] := by
  obtain ⟨path, hpath⟩ := h.checkMemory_eq_ok hkind
  exact (checkMemory_eq_ok_iff.1 hpath).1

/-- Only a container has children. -/
theorem container_of_child (h : n.IsValid) {c : Node} (hc : c ∈ n.children) :
    n.kind = .addrmap ∨ n.kind = .regfile := by
  cases hn : n.kind with
  | addrmap => exact Or.inl rfl
  | regfile => exact Or.inr rfl
  | reg => simp [h.children_of_register hn] at hc
  | mem => simp [h.children_of_memory hn] at hc

theorem child (h : n.IsValid) {c : Node} (hc : c ∈ n.children) : c.IsValid := by
  have hkind := h.container_of_child hc
  obtain ⟨path, hpath⟩ := h
  obtain ⟨_, _, hall⟩ := (validateAt_eq_ok_iff_of_container hkind).1 hpath
  exact ⟨childPath path c.name, hall c hc⟩

/-- What the check of a register comes to, without the paths of its errors. -/
theorem register_checks (h : n.IsValid) (hkind : n.kind = .reg) :
    ∃ path, checkRegWidth n.properties path = .ok () ∧
      checkFields path n.regWidth n.fields = .ok () := by
  obtain ⟨path, hpath⟩ := h.checkRegister_eq_ok hkind
  obtain ⟨_, hwidth, _, hfields, _⟩ := checkRegister_eq_ok_iff.1 hpath
  exact ⟨path, hwidth, hfields⟩

theorem regWidth_bounds (h : n.IsValid) (hkind : n.kind = .reg) :
    0 < n.regWidth ∧ n.regWidth ≤ 64 ∧ n.regWidth % 8 = 0 := by
  obtain ⟨path, hwidth, _⟩ := h.register_checks hkind
  unfold checkRegWidth at hwidth
  unfold regWidth
  cases hint : n.properties.int? "regwidth" with
  | none => decide
  | some width =>
    rw [hint] at hwidth
    simp only [Option.getD_some] at hwidth
    split at hwidth
    case isTrue => cases hwidth
    case isFalse hok =>
      simp only [Option.map_some, Option.getD_some, Word.saturate, Word.narrowLimit]
      omega

theorem field_bounds (h : n.IsValid) (hkind : n.kind = .reg) {f : Field} (hf : f ∈ n.fields) :
    f.lsb ≤ f.msb ∧ f.msb < n.regWidth := by
  obtain ⟨path, _, hfields⟩ := h.register_checks hkind
  exact Field.check_eq_ok (checkFields_eq_ok hfields f hf)

end IsValid

end Node

theorem Element.isValid_of_mem_children {options : WalkOptions} {parent e : Element}
    (h : parent.node.IsValid) (he : e ∈ parent.children options) : e.node.IsValid :=
  h.child (node_mem_of_mem_children he)

end RegisterMap
