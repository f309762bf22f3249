import Mathlib.Data.List.Perm.Subperm
import RegisterMap.Proofs.FieldOverlap
import RegisterMap.Proofs.Valid

/-!
The invariants of a node, said without the check, and what the check of one node makes of
them: it passes a node exactly if the node keeps them all, and an error tells of one that
the node breaks.
-/

namespace RegisterMap

/-- There are dimensions, none of them zero; the number of elements is a word, and so is the
distance from the first element to the last. -/
structure ArrayShape.IsRegular (a : ArrayShape) : Prop where
  dimensions_ne_nil : a.dimensions ≠ []
  dimension_pos : ∀ d ∈ a.dimensions, 1 ≤ d
  count_lt : a.dimensions.prod < Word.limit
  span_lt : a.stride * (a.dimensions.prod - 1) < Word.limit

theorem ArrayShape.isValid_iff {a : ArrayShape} : a.isValid = true ↔ a.IsRegular := by
  constructor
  · intro h
    have hsound := isSound_of_isValid h
    exact ⟨hsound.dimensions_ne_nil, fun _ hd => hsound.dimension_pos hd,
      hsound.count_eq ▸ hsound.count_lt, hsound.count_eq ▸ hsound.between_lt⟩
  · rintro ⟨hne, hpos, hcount, hspan⟩
    have hproduct := Word.product?_of_pos hpos hcount
    have hprod : 0 < a.dimensions.prod := List.prod_pos_iff_forall_pos_nat.2 hpos
    simp [isValid, checkedCount?, hproduct, hne, hprod, Word.mul?, Word.isSome_ofNat?_iff, hspan]

namespace Properties

/-- A property that is absent or one of some words. -/
def HasWord (ofWord? : String → Option α) (p : Properties) (key : String) : Prop :=
  ∀ value, p.get? key = some value → ∃ word a, value = .text word ∧ ofWord? word = some a

/-- A property that is no number or the number of a narrow word other than zero. -/
def HasWidth (p : Properties) (key : String) : Prop :=
  ∀ width, p.int? key = some width → 1 ≤ width ∧ width < Word.narrowLimit

/-- The width that a table gives to a register, 32 where it gives no number. -/
def givenWidth (p : Properties) : Nat := (p.int? "regwidth").getD 32

/-- A register has whole bytes, one at least and eight at most. -/
def HasRegWidth (p : Properties) : Prop :=
  p.givenWidth ≠ 0 ∧ p.givenWidth % 8 = 0 ∧ p.givenWidth ≤ 64

theorem regWidth_eq {n : Node} (h : n.properties.HasRegWidth) :
    n.regWidth = n.properties.givenWidth := by
  unfold HasRegWidth givenWidth at h
  unfold Node.regWidth givenWidth
  cases hint : n.properties.int? "regwidth" with
  | none => rfl
  | some width =>
    rw [hint, Option.getD_some] at h
    simp only [Option.map_some, Option.getD_some, Word.saturate, Word.narrowLimit]
    omega

end Properties

/-- A row of checks passes if each of them does. -/
theorem Except.forM_eq_ok_iff {ε : Type} {items : List α} {check : α → Except ε Unit} :
    forM items check = .ok () ↔ ∀ a ∈ items, check a = .ok () := by
  induction items with
  | nil => simp [pure, Except.pure]
  | cons first rest ih =>
    rw [List.forM_cons, Except.andThen_eq_ok_iff, ih, List.forall_mem_cons]

/-- A row of checks ends in the error of the first that does not pass. -/
theorem Except.forM_eq_error_iff {ε : Type} {items : List α} {check : α → Except ε Unit} {e : ε} :
    forM items check = .error e ↔
      ∃ before item after, items = before ++ item :: after ∧
        (∀ a ∈ before, check a = .ok ()) ∧ check item = .error e := by
  induction items with
  | nil => simp [pure, Except.pure]
  | cons first rest ih =>
    rw [List.forM_cons]
    cases hfirst : check first with
    | error e' =>
      constructor
      · intro h
        exact ⟨[], first, rest, rfl, by simp, hfirst.trans h⟩
      · rintro ⟨before, item, after, hitems, hbefore, hitem⟩
        cases before with
        | nil =>
          obtain ⟨rfl, rfl⟩ := List.cons.inj hitems
          exact hfirst.symm.trans hitem
        | cons b before =>
          obtain ⟨rfl, rfl⟩ := List.cons.inj hitems
          cases hfirst.symm.trans (hbefore first List.mem_cons_self)
    | ok _ =>
      refine Iff.trans ih ⟨?_, ?_⟩
      · rintro ⟨before, item, after, rfl, hbefore, hitem⟩
        exact ⟨first :: before, item, after, rfl,
          List.forall_mem_cons.2 ⟨hfirst, hbefore⟩, hitem⟩
      · rintro ⟨before, item, after, hitems, hbefore, hitem⟩
        cases before with
        | nil =>
          obtain ⟨rfl, rfl⟩ := List.cons.inj hitems
          cases hfirst.symm.trans hitem
        | cons b before =>
          obtain ⟨rfl, rfl⟩ := List.cons.inj hitems
          exact ⟨before, item, after, rfl, (List.forall_mem_cons.1 hbefore).2, hitem⟩

/-- A check passes exactly if something holds, and any error of it is among some. -/
structure Judges (check : Except ModelError Unit) (holds : Prop) (fault : ModelError → Prop) :
    Prop where
  ok_iff : check = .ok () ↔ holds
  of_error : ∀ e, check = .error e → fault e

namespace Judges

variable {holds others : Prop} {fault : ModelError → Prop} {x y : Except ModelError Unit}

theorem passed (h : holds) : Judges (.ok ()) holds fault :=
  ⟨by simp [h], fun _ he => by cases he⟩

theorem failed {e : ModelError} (h : ¬ holds) (he : fault e) : Judges (.error e) holds fault :=
  ⟨by simp [h], fun _ h => Except.error.inj h ▸ he⟩

theorem imp {more : ModelError → Prop} (h : Judges x holds fault) (hiff : holds ↔ others)
    (hfault : ∀ e, fault e → more e) : Judges x others more :=
  ⟨h.ok_iff.trans hiff, fun e he => hfault e (h.of_error e he)⟩

/-- The second of two checks is made if the first passes. -/
theorem andThen (hx : Judges x holds fault) (hy : holds → Judges y others fault) :
    Judges (x >>= fun _ => y) (holds ∧ others) fault := by
  cases x with
  | error e =>
    have hnot : ¬ holds := fun h => by cases hx.ok_iff.2 h
    exact failed (fun h => hnot h.1) (hx.of_error e rfl)
  | ok _ =>
    have h : holds := hx.ok_iff.1 rfl
    exact (hy h).imp (by simp [h]) fun _ he => he

/-- A check behind a guard. -/
theorem guarded {c : Prop} [Decidable c] {e : ModelError} (he : c → fault e)
    (hx : ¬ c → Judges x holds fault) :
    Judges (if c then (throw e : Except ModelError Unit) >>= fun _ => x else x)
      (¬ c ∧ holds) fault := by
  by_cases h : c
  · rw [if_pos h]
    exact failed (fun hboth => hboth.1 h) (he h)
  · rw [if_neg h]
    exact (hx h).imp (by simp [h]) fun _ he => he

end Judges

/-! The checks of properties; an error tells the property. -/

section

variable {fault : ModelError → Prop} {p : Properties} {path key : String}

theorem judges_checkWord {ofWord? : String → Option α}
    (hfault : ¬ p.HasWord ofWord? key → ∀ value, fault (.badProperty path key value)) :
    Judges (checkWord ofWord? p path key) (p.HasWord ofWord? key) fault := by
  have hnone (value : PropertyValue) (hvalue : p.get? key = some value)
      (hother : ∀ word a, value = .text word → ofWord? word ≠ some a) :
      ¬ p.HasWord ofWord? key := by
    intro h
    obtain ⟨word, a, htext, hword⟩ := h value hvalue
    exact hother word a htext hword
  unfold checkWord Properties.parsed
  cases hvalue : p.get? key with
  | none => exact .passed fun value h => by cases hvalue.symm.trans h
  | some value =>
    have hnot := hnone value hvalue
    cases value with
    | text word =>
      dsimp only
      cases hword : ofWord? word with
      | some a =>
        refine .passed fun value h => ⟨word, a, ?_, hword⟩
        exact (Option.some.inj (hvalue.symm.trans h)).symm
      | none =>
        have hbad := hnot (by rintro _ a ⟨⟩; simp [hword])
        exact .failed hbad (hfault hbad word)
    | bool b => exact .failed (hnot nofun) (hfault (hnot nofun) _)
    | int n => exact .failed (hnot nofun) (hfault (hnot nofun) _)
    | encode values => exact .failed (hnot nofun) (hfault (hnot nofun) _)

theorem judges_checkWidth
    (hfault : ¬ p.HasWidth key → ∀ value, fault (.badProperty path key value)) :
    Judges (checkWidth p path key) (p.HasWidth key) fault := by
  unfold checkWidth
  cases hint : p.int? key with
  | none => exact .passed fun width hwidth => by cases hint.symm.trans hwidth
  | some width =>
    dsimp only
    split
    case isTrue hbad =>
      have hnot : ¬ p.HasWidth key := fun hgood => by
        have hbounds := hgood width hint
        omega
      exact .failed hnot (hfault hnot _)
    case isFalse hgood =>
      refine .passed fun given hgiven => ?_
      obtain rfl : width = given := Option.some.inj (hint.symm.trans hgiven)
      omega

theorem judges_checkRegWidth
    (hfault : ¬ p.HasRegWidth → ∀ value, fault (.badProperty path "regwidth" value)) :
    Judges (checkRegWidth p path) p.HasRegWidth fault := by
  change Judges (if p.givenWidth = 0 ∨ p.givenWidth % 8 ≠ 0 ∨ 64 < p.givenWidth then
    .error (.badProperty path "regwidth" (toString p.givenWidth)) else .ok ()) _ _
  split
  case isTrue hbad =>
    have hnot : ¬ p.HasRegWidth := fun ⟨_, _, _⟩ => by omega
    exact .failed hnot (hfault hnot _)
  case isFalse hgood => exact .passed ⟨by omega, by omega, by omega⟩

end

namespace Field

/-- The field lies in its register, and what it says of accesses are words. -/
structure IsSound (f : Field) (width : Nat) : Prop where
  range : f.lsb ≤ f.msb ∧ f.msb < width
  sw : f.properties.HasWord SoftwareAccess.ofWord? "sw"
  hw : f.properties.HasWord HardwareAccess.ofWord? "hw"
  onread : f.properties.HasWord ReadEffect.ofWord? "onread"
  onwrite : f.properties.HasWord WriteEffect.ofWord? "onwrite"

/-- The errors that a field with a path gives cause for. -/
inductive Fault (f : Field) (path : String) (width : Nat) : ModelError → Prop
  | range (h : ¬ (f.lsb ≤ f.msb ∧ f.msb < width)) :
    Fault f path width (.fieldRange path f.lsb f.msb width)
  | sw (h : ¬ f.properties.HasWord SoftwareAccess.ofWord? "sw") (value : String) :
    Fault f path width (.badProperty path "sw" value)
  | hw (h : ¬ f.properties.HasWord HardwareAccess.ofWord? "hw") (value : String) :
    Fault f path width (.badProperty path "hw" value)
  | onread (h : ¬ f.properties.HasWord ReadEffect.ofWord? "onread") (value : String) :
    Fault f path width (.badProperty path "onread" value)
  | onwrite (h : ¬ f.properties.HasWord WriteEffect.ofWord? "onwrite") (value : String) :
    Fault f path width (.badProperty path "onwrite" value)

theorem judges_check (f : Field) (regPath : String) (width : Nat) :
    Judges (f.check regPath width) (f.IsSound width)
      (f.Fault (childPath regPath f.name) width) := by
  have hchecks : Judges (f.check regPath width) _ (f.Fault (childPath regPath f.name) width) :=
    .guarded (fun h => .range (by omega)) fun _ =>
      (judges_checkWord .sw).andThen fun _ =>
      (judges_checkWord .hw).andThen fun _ =>
      (judges_checkWord .onread).andThen fun _ =>
      judges_checkWord .onwrite
  refine hchecks.imp ⟨?_, ?_⟩ fun _ he => he
  · rintro ⟨hrange, hsw, hhw, hread, hwrite⟩
    exact ⟨by omega, hsw, hhw, hread, hwrite⟩
  · intro h
    have hrange := h.range
    exact ⟨by omega, h.sw, h.hw, h.onread, h.onwrite⟩

end Field

theorem checkFields_eq (path : String) (width : Nat) (fields : List Field) :
    checkFields path width fields = forM fields fun f => f.check path width := by
  induction fields with
  | nil => rfl
  | cons f rest ih => rw [checkFields, ih, List.forM_cons]

theorem judges_checkFields (path : String) (width : Nat) (fields : List Field) :
    Judges (checkFields path width fields) (∀ f ∈ fields, f.IsSound width)
      fun e => ∃ f ∈ fields, f.Fault (childPath path f.name) width e := by
  rw [checkFields_eq]
  constructor
  · rw [Except.forM_eq_ok_iff]
    exact forall₂_congr fun f _ => (f.judges_check path width).ok_iff
  · intro e he
    obtain ⟨before, f, after, rfl, _, hf⟩ := Except.forM_eq_error_iff.1 he
    exact ⟨f, by simp, (f.judges_check path width).of_error e hf⟩

theorem exists_of_firstOverlap? {fields : List Field} {a b : Field}
    (h : firstOverlap? fields = some (a, b)) :
    [a, b].Sublist fields ∧ b.lsb ≤ a.msb := by
  induction fields with
  | nil => cases h
  | cons first rest ih =>
    cases rest with
    | nil => cases h
    | cons second rest =>
      rw [firstOverlap?] at h
      split at h
      case isTrue hoverlap =>
        obtain ⟨rfl, rfl⟩ := Prod.mk.inj (Option.some.inj h)
        exact ⟨by simp, hoverlap⟩
      case isFalse =>
        obtain ⟨hsub, hoverlap⟩ := ih h
        exact ⟨hsub.cons first, hoverlap⟩

namespace Field

/-- Two fields that have a bit in common. -/
def Overlaps (a b : Field) : Prop :=
  ∃ bit, (a.lsb ≤ bit ∧ bit ≤ a.msb) ∧ b.lsb ≤ bit ∧ bit ≤ b.msb

theorem isApart_iff_not_overlaps {a b : Field} (ha : a.lsb ≤ a.msb) (hb : b.lsb ≤ b.msb) :
    a.IsApart b ↔ ¬ a.Overlaps b := by
  constructor
  · rintro h ⟨bit, hbits⟩
    have : a.msb < b.lsb ∨ b.msb < a.lsb := h
    omega
  · intro h
    by_contra hnot
    have hmeet : ¬ (a.msb < b.lsb ∨ b.msb < a.lsb) := hnot
    exact h ⟨max a.lsb b.lsb, by omega⟩

end Field

/-- An overlap that is told is one, of fields at two positions. -/
theorem judges_checkOverlap {path : String} {fields : List Field}
    (hranges : ∀ f ∈ fields, f.lsb ≤ f.msb) :
    Judges (checkOverlap path fields) (fields.Pairwise fun a b => ¬ a.Overlaps b)
      fun e => ∃ a b, [a, b].Subperm fields ∧ a.Overlaps b ∧
        e = .fieldOverlap path a.name b.name := by
  constructor
  · rw [checkOverlap_eq_ok_iff path hranges]
    refine List.Pairwise.iff_of_mem fun ha hb => ?_
    exact Field.isApart_iff_not_overlaps (hranges _ ha) (hranges _ hb)
  · intro e he
    have hperm : (sortFields fields).Perm fields := List.mergeSort_perm fields _
    unfold checkOverlap at he
    cases hfirst : firstOverlap? (sortFields fields) with
    | none => simp [hfirst] at he
    | some pair =>
      obtain ⟨a, b⟩ := pair
      simp only [hfirst, Except.error.injEq] at he
      obtain ⟨hsub, hoverlap⟩ := exists_of_firstOverlap? hfirst
      have horder : a.lsb ≤ b.lsb := by
        have hpair := (pairwise_sortFields fields).sublist hsub
        simpa using hpair
      have hb : b.lsb ≤ b.msb := hranges b (hperm.mem_iff.1 (hsub.subset (by simp)))
      exact ⟨a, b, hsub.subperm.trans hperm.subperm, ⟨b.lsb, by omega⟩, he.symm⟩

namespace Node

/-- What a register keeps: its width and that of an access, and its fields, each for itself
and no two with a bit in common. -/
structure IsSoundRegister (n : Node) : Prop where
  children : n.children = []
  regWidth : n.properties.HasRegWidth
  accessWidth : n.properties.HasWidth "accesswidth"
  fields : ∀ f ∈ n.fields, f.IsSound n.properties.givenWidth
  apart : n.fields.Pairwise fun a b => ¬ a.Overlaps b

structure IsSoundMemory (n : Node) : Prop where
  children : n.children = []
  fields : n.fields = []
  memWidth : n.properties.HasWidth "memwidth"
  sw : n.properties.HasWord SoftwareAccess.ofWord? "sw"

/-- What a node keeps by its kind. -/
def IsSoundKind (n : Node) : Prop :=
  match n.kind with
  | .reg => n.IsSoundRegister
  | .mem => n.IsSoundMemory
  | .addrmap | .regfile => n.fields = []

/-- The invariants of a node, without those of the nodes below it. -/
structure IsSound (n : Node) : Prop where
  array : ∀ a, n.array = some a → a.IsRegular
  ofKind : n.IsSoundKind

/-- The errors that a node at a path gives cause for. They name its path, or for a fault of a
field the path of the field. -/
inductive Fault (n : Node) (path : String) : ModelError → Prop
  | array {a : ArrayShape} (ha : n.array = some a) (h : ¬ a.IsRegular) :
    Fault n path (.badArray path)
  | registerParts (hkind : n.kind = .reg) (h : n.children ≠ []) :
    Fault n path (.badNesting path "reg" "child nodes")
  | regWidth (hkind : n.kind = .reg) (h : ¬ n.properties.HasRegWidth) (value : String) :
    Fault n path (.badProperty path "regwidth" value)
  | accessWidth (hkind : n.kind = .reg) (h : ¬ n.properties.HasWidth "accesswidth")
    (value : String) : Fault n path (.badProperty path "accesswidth" value)
  | field (hkind : n.kind = .reg) {f : Field} (hf : f ∈ n.fields) {e : ModelError}
    (h : f.Fault (childPath path f.name) n.properties.givenWidth e) : Fault n path e
  | overlap (hkind : n.kind = .reg) {a b : Field} (htwo : [a, b].Subperm n.fields)
    (h : a.Overlaps b) : Fault n path (.fieldOverlap path a.name b.name)
  | memoryParts (hkind : n.kind = .mem) (h : n.children ≠ [] ∨ n.fields ≠ []) :
    Fault n path (.badNesting path "mem" "children or fields")
  | memWidth (hkind : n.kind = .mem) (h : ¬ n.properties.HasWidth "memwidth") (value : String) :
    Fault n path (.badProperty path "memwidth" value)
  | memoryAccess (hkind : n.kind = .mem)
    (h : ¬ n.properties.HasWord SoftwareAccess.ofWord? "sw") (value : String) :
    Fault n path (.badProperty path "sw" value)
  | containerFields (hkind : n.kind = .addrmap ∨ n.kind = .regfile) (h : n.fields ≠ []) :
    Fault n path (.badNesting path n.kind.word "fields")

variable {n : Node} {path : String}

theorem judges_checkRegister (hkind : n.kind = .reg) :
    Judges (n.checkRegister path) n.IsSoundRegister (n.Fault path) := by
  have hword : n.kind.word = "reg" := by rw [hkind, Kind.word]
  have hfields (hwidth : n.properties.HasRegWidth) :
      Judges (checkFields path n.regWidth n.fields)
        (∀ f ∈ n.fields, f.IsSound n.properties.givenWidth) (n.Fault path) := by
    rw [Properties.regWidth_eq hwidth]
    exact (judges_checkFields path _ n.fields).imp Iff.rfl fun e ⟨f, hf, h⟩ => .field hkind hf h
  have hoverlap (hsound : ∀ f ∈ n.fields, f.IsSound n.properties.givenWidth) :
      Judges (checkOverlap path n.fields) (n.fields.Pairwise fun a b => ¬ a.Overlaps b)
        (n.Fault path) :=
    (judges_checkOverlap fun f hf => (hsound f hf).range.1).imp Iff.rfl
      fun e ⟨a, b, htwo, h, he⟩ => he ▸ .overlap hkind htwo h
  have hchecks : Judges (n.checkRegister path) _ (n.Fault path) :=
    .guarded (fun h => hword ▸ .registerParts hkind (by simpa using h)) fun _ =>
      (judges_checkRegWidth (.regWidth hkind)).andThen fun hwidth =>
      (judges_checkWidth (.accessWidth hkind)).andThen fun _ =>
      (hfields hwidth).andThen hoverlap
  refine hchecks.imp ⟨?_, ?_⟩ fun _ he => he
  · rintro ⟨hchildren, hwidth, haccess, hfields, hapart⟩
    exact ⟨by simpa using hchildren, hwidth, haccess, hfields, hapart⟩
  · intro h
    exact ⟨by simpa using h.children, h.regWidth, h.accessWidth, h.fields, h.apart⟩

theorem judges_checkMemory (hkind : n.kind = .mem) :
    Judges (n.checkMemory path) n.IsSoundMemory (n.Fault path) := by
  have hword : n.kind.word = "mem" := by rw [hkind, Kind.word]
  have hchecks : Judges (n.checkMemory path) _ (n.Fault path) :=
    .guarded (fun h => hword ▸ .memoryParts hkind (by simpa using h)) fun _ =>
      (judges_checkWidth (.memWidth hkind)).andThen fun _ =>
      judges_checkWord (.memoryAccess hkind)
  refine hchecks.imp ⟨?_, ?_⟩ fun _ he => he
  · rintro ⟨hparts, hwidth, hsw⟩
    simp only [Bool.or_eq_true, Bool.not_eq_true', not_or, Bool.not_eq_false,
      List.isEmpty_iff] at hparts
    exact ⟨hparts.1, hparts.2, hwidth, hsw⟩
  · intro h
    exact ⟨by simp [h.children, h.fields], h.memWidth, h.sw⟩

theorem judges_checkNoFields (hkind : n.kind = .addrmap ∨ n.kind = .regfile) :
    Judges (n.checkNoFields path) (n.fields = []) (n.Fault path) := by
  unfold checkNoFields
  by_cases h : n.fields = []
  · rw [if_pos (by simpa using h)]
    exact .passed h
  · rw [if_neg (by simpa using h)]
    exact .failed h (.containerFields hkind h)

theorem judges_checkArray :
    Judges (n.checkArray path) (∀ a, n.array = some a → a.IsRegular) (n.Fault path) := by
  unfold checkArray
  cases harray : n.array with
  | none => exact .passed nofun
  | some a =>
    dsimp only
    by_cases h : a.isValid = true
    · rw [if_pos h]
      exact .passed fun _ ha => Option.some.inj ha ▸ ArrayShape.isValid_iff.1 h
    · rw [if_neg h]
      rw [ArrayShape.isValid_iff] at h
      exact .failed (fun hall => h (hall a rfl)) (.array harray h)

/-- The check of a node without the nodes below it. -/
def checkAlone (n : Node) (path : String) : Except ModelError Unit := do
  n.checkArray path
  match n.kind with
  | .reg => n.checkRegister path
  | .mem => n.checkMemory path
  | .addrmap | .regfile => n.checkNoFields path

/-- A node passes its check exactly if it keeps its invariants, and an error of the check
tells a fault of the node. -/
theorem judges_checkAlone (n : Node) (path : String) :
    Judges (n.checkAlone path) n.IsSound (n.Fault path) := by
  have hofKind : Judges (match n.kind with
      | .reg => n.checkRegister path
      | .mem => n.checkMemory path
      | .addrmap | .regfile => n.checkNoFields path) n.IsSoundKind (n.Fault path) := by
    unfold IsSoundKind
    cases hkind : n.kind with
    | reg => exact judges_checkRegister hkind
    | mem => exact judges_checkMemory hkind
    | addrmap => exact judges_checkNoFields (Or.inl hkind)
    | regfile => exact judges_checkNoFields (Or.inr hkind)
  exact (judges_checkArray.andThen fun _ => hofKind).imp
    ⟨fun h => ⟨h.1, h.2⟩, fun h => ⟨h.array, h.ofKind⟩⟩ fun _ he => he

end Node

end RegisterMap
