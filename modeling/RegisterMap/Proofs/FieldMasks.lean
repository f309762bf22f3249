import Mathlib.Data.List.Forall2
import Mathlib.Data.Nat.Bitwise
import RegisterMap.Proofs.ReadAsGiven

/-!
The masks of fields. The mask of a field in a valid register has the bits of the field and no
others, up to the last bit of a word. Fields without a common bit have masks without one, so
that the masks of a register are parts of its width, and what is written into one field is
read back from it and changes no other.
-/

namespace RegisterMap

/-- Numbers without a common bit are added bit by bit. -/
theorem add_eq_or_of_and_eq_zero {a b : Nat} (h : a &&& b = 0) : a + b = a ||| b := by
  have hbound : a + b < 2 ^ (a + b) := Nat.lt_two_pow_self
  have ha : a < 2 ^ (a + b) := Nat.lt_of_le_of_lt (Nat.le_add_right a b) hbound
  have hb : b < 2 ^ (a + b) := Nat.lt_of_le_of_lt (Nat.le_add_left b a) hbound
  have hapart : BitVec.ofNat (a + b) a &&& BitVec.ofNat (a + b) b = 0 := by
    rw [← BitVec.toNat_inj]
    simp [Nat.mod_eq_of_lt ha, Nat.mod_eq_of_lt hb, h]
  have hsum := congrArg BitVec.toNat (BitVec.add_eq_or_of_and_eq_zero _ _ hapart)
  simpa [Nat.mod_eq_of_lt ha, Nat.mod_eq_of_lt hb, Nat.mod_eq_of_lt hbound] using hsum

/-- A number without a bit in common with each of some has none in common with all of them. -/
theorem and_foldr_or_eq_zero {a : Nat} {others : List Nat} (h : ∀ b ∈ others, a &&& b = 0) :
    a &&& others.foldr (· ||| ·) 0 = 0 := by
  induction others with
  | nil => simp
  | cons b rest ih =>
    obtain ⟨hfirst, hrest⟩ := List.forall_mem_cons.1 h
    rw [List.foldr_cons, Nat.and_or_distrib_left, hfirst, ih hrest, Nat.or_self]

theorem sum_eq_foldr_or {masks : List Nat} (h : masks.Pairwise fun a b => a &&& b = 0) :
    masks.sum = masks.foldr (· ||| ·) 0 := by
  induction masks with
  | nil => rfl
  | cons mask rest ih =>
    obtain ⟨hfirst, hrest⟩ := List.pairwise_cons.1 h
    rw [List.sum_cons, List.foldr_cons, ih hrest,
      add_eq_or_of_and_eq_zero (and_foldr_or_eq_zero hfirst)]

theorem and_eq_zero_of_ne {masks : List Nat} (h : masks.Pairwise fun a b => a &&& b = 0)
    {i j a b : Nat} (hne : i ≠ j) (ha : masks[i]? = some a) (hb : masks[j]? = some b) :
    a &&& b = 0 := by
  obtain ⟨hi, rfl⟩ := List.getElem?_eq_some_iff.1 ha
  obtain ⟨hj, rfl⟩ := List.getElem?_eq_some_iff.1 hb
  rcases Nat.lt_or_gt_of_ne hne with hlt | hgt
  · exact List.pairwise_iff_getElem.1 h i j hi hj hlt
  · rw [Nat.and_comm]
    exact List.pairwise_iff_getElem.1 h j i hj hi hgt

theorem foldr_or_lt {masks : List Nat} {width : Nat} (h : ∀ mask ∈ masks, mask < 2 ^ width) :
    masks.foldr (· ||| ·) 0 < 2 ^ width := by
  induction masks with
  | nil => exact Nat.two_pow_pos width
  | cons mask rest ih =>
    obtain ⟨hfirst, hrest⟩ := List.forall_mem_cons.1 h
    exact Nat.or_lt_two_pow hfirst (ih hrest)

namespace Field

/-- The number of bits from the lowest to the highest of a field. -/
def bitCount (f : Field) : Nat := f.msb - f.lsb + 1

/-- The bits of a field, each at its place. -/
def bits (f : Field) : Nat := (2 ^ f.bitCount - 1) <<< f.lsb

/-- What the value of a register says of a field. -/
def read (f : Field) (mask value : Nat) : Nat := (value &&& mask) >>> f.lsb

/-- The value of a register with that of a field replaced. The new value is shifted as a word
is, and what is not under the mask is left out. -/
def replace (f : Field) (mask value new : Nat) : Nat :=
  value.ldiff mask ||| (new <<< f.lsb % Word.limit &&& mask)

/-- A mask that has the bits of a field, no more and no less, all of them inside a register. -/
structure HasMask (regWidth : Nat) (f : Field) (mask : Nat) : Prop where
  width_eq : f.width? = some f.bitCount
  mask_eq : f.mask? = some mask
  testBit_eq : ∀ bit, mask.testBit bit = decide (f.lsb ≤ bit ∧ bit ≤ f.msb)
  shiftRight_eq : mask >>> f.lsb = 2 ^ f.bitCount - 1
  mask_lt : mask < 2 ^ regWidth

theorem testBit_bits {f : Field} (h : f.lsb ≤ f.msb) (bit : Nat) :
    f.bits.testBit bit = decide (f.lsb ≤ bit ∧ bit ≤ f.msb) := by
  rw [bits, bitCount, Nat.testBit_shiftLeft, Nat.testBit_two_pow_sub_one, ← Bool.decide_and,
    decide_eq_decide]
  omega

theorem bits_lt {f : Field} (h : f.lsb ≤ f.msb) {width : Nat} (hwidth : f.msb < width) :
    f.bits < 2 ^ width := by
  refine Nat.lt_pow_two_of_testBit _ fun bit hbit => ?_
  rw [testBit_bits h, decide_eq_false_iff_not]
  omega

/-- No bit of a field that ends in a word is cut off. -/
theorem mask?_eq {f : Field} (h : f.lsb ≤ f.msb) (hword : f.msb < 64) :
    f.width? = some f.bitCount ∧ f.mask? = some f.bits := by
  have hwidth : f.width? = some f.bitCount := by
    rw [width?, if_pos ⟨h, by rw [Word.narrowLimit]; omega⟩, bitCount]
  have hones : min f.bitCount 64 = f.bitCount := by
    rw [bitCount]
    omega
  have hfits : f.bits % Word.limit = f.bits := Nat.mod_eq_of_lt (bits_lt h hword)
  refine ⟨hwidth, ?_⟩
  rw [mask?, hwidth]
  change some (if f.lsb < 64 then _ else _) = _
  rw [if_pos (by omega), lowBits, hones]
  exact congrArg some hfits

theorem hasMask_bits {f : Field} {regWidth : Nat} (h : f.lsb ≤ f.msb ∧ f.msb < regWidth)
    (hword : regWidth ≤ 64) : f.HasMask regWidth f.bits where
  width_eq := (mask?_eq h.1 (by omega)).1
  mask_eq := (mask?_eq h.1 (by omega)).2
  testBit_eq := testBit_bits h.1
  shiftRight_eq := by rw [bits, Nat.shiftLeft_shiftRight]
  mask_lt := bits_lt h.1 h.2

/-! A register with the value of one field replaced. -/

section

variable {f g : Field} {mask other regWidth : Nat}

/-- Under the mask stands the new value, and all else is as it was. -/
theorem testBit_replace (h : f.HasMask regWidth mask) (hword : f.msb < 64) (value new bit : Nat) :
    (f.replace mask value new).testBit bit =
      if f.lsb ≤ bit ∧ bit ≤ f.msb then new.testBit (bit - f.lsb) else value.testBit bit := by
  have hlimit : Word.limit = 2 ^ 64 := rfl
  rw [replace, Nat.testBit_or, Nat.testBit_ldiff, Nat.testBit_and, hlimit, Nat.testBit_mod_two_pow,
    Nat.testBit_shiftLeft, h.testBit_eq]
  by_cases hinside : f.lsb ≤ bit ∧ bit ≤ f.msb
  · have hbit : bit < 64 := Nat.lt_of_le_of_lt hinside.2 hword
    simp [hinside, hbit]
  · simp [hinside]

theorem testBit_read (h : f.HasMask regWidth mask) (value bit : Nat) :
    (f.read mask value).testBit bit =
      (value.testBit (f.lsb + bit) && decide (f.lsb + bit ≤ f.msb)) := by
  rw [read, Nat.testBit_shiftRight, Nat.testBit_and, h.testBit_eq]
  simp

theorem read_replace_self (h : f.HasMask regWidth mask) (hrange : f.lsb ≤ f.msb)
    (hword : f.msb < 64) (value new : Nat) :
    f.read mask (f.replace mask value new) = new % 2 ^ f.bitCount := by
  refine Nat.eq_of_testBit_eq fun bit => ?_
  rw [testBit_read h, testBit_replace h hword, Nat.testBit_mod_two_pow, bitCount]
  have hinside : f.lsb + bit ≤ f.msb ↔ bit < f.msb - f.lsb + 1 := by omega
  by_cases hbit : f.lsb + bit ≤ f.msb
  · simp [hbit, hinside.1 hbit]
  · simp [hbit, mt hinside.2 hbit]

/-- What is written under one mask is not seen under another that has no bit in common. -/
theorem read_replace_of_apart (h : mask &&& other = 0) (value new : Nat) :
    g.read other (f.replace mask value new) = g.read other value := by
  rw [read, read]
  congr 1
  refine Nat.eq_of_testBit_eq fun bit => ?_
  have hbit : (mask.testBit bit && other.testBit bit) = false := by
    rw [← Nat.testBit_and, h, Nat.zero_testBit]
  rw [Nat.testBit_and, Nat.testBit_and, replace, Nat.testBit_or, Nat.testBit_ldiff,
    Nat.testBit_and]
  cases hmask : mask.testBit bit with
  | false => simp
  | true =>
    rw [hmask, Bool.true_and] at hbit
    simp [hbit]

theorem replace_lt (hmask : mask < 2 ^ regWidth) {value : Nat} (hvalue : value < 2 ^ regWidth)
    (new : Nat) : f.replace mask value new < 2 ^ regWidth := by
  refine Nat.or_lt_two_pow (Nat.lt_pow_two_of_testBit _ fun bit hbit => ?_)
    (Nat.and_lt_two_pow _ hmask)
  rw [Nat.testBit_ldiff, Nat.testBit_lt_two_pow (hvalue.trans_le (Nat.pow_le_pow_right (by decide)
    hbit)), Bool.false_and]

end

theorem bits_and_bits {f g : Field} (hf : f.lsb ≤ f.msb) (hg : g.lsb ≤ g.msb)
    (h : ¬ f.Overlaps g) : f.bits &&& g.bits = 0 := by
  refine Nat.eq_of_testBit_eq fun bit => ?_
  rw [Nat.testBit_and, testBit_bits hf, testBit_bits hg, ← Bool.decide_and, Nat.zero_testBit,
    decide_eq_false_iff_not]
  exact fun hboth => h ⟨bit, hboth⟩

theorem mapM_mask? {fields : List Field} {regWidth : Nat}
    (h : ∀ f ∈ fields, f.HasMask regWidth f.bits) :
    fields.mapM mask? = some (fields.map bits) := by
  induction fields with
  | nil => rfl
  | cons f rest ih =>
    obtain ⟨hfirst, hrest⟩ := List.forall_mem_cons.1 h
    simp [List.mapM_cons, hfirst.mask_eq, ih hrest]

end Field

/-- Masks of the fields of a register. Each has the bits of its field, no two have a bit in
common, and together they are no more than the register. A value that is written into a field
is read back from it, as far as it fits, and all other fields keep theirs. -/
structure Node.IsPartedBy (n : Node) (masks : List Nat) : Prop where
  hasMask : List.Forall₂ (Field.HasMask n.regWidth) n.fields masks
  apart : masks.Pairwise fun a b => a &&& b = 0
  sum_eq : masks.sum = masks.foldr (· ||| ·) 0
  sum_le : masks.sum ≤ 2 ^ n.regWidth - 1
  read_self : ∀ (i : Nat) (f : Field) (mask : Nat), n.fields[i]? = some f →
    masks[i]? = some mask → ∀ value new,
      f.read mask (f.replace mask value new) = new % 2 ^ f.bitCount
  read_other : ∀ (i j : Nat) (f g : Field) (mask other : Nat), i ≠ j →
    n.fields[i]? = some f → masks[i]? = some mask →
    n.fields[j]? = some g → masks[j]? = some other → ∀ value new,
      g.read other (f.replace mask value new) = g.read other value
  replace_lt : ∀ (i : Nat) (f : Field) (mask : Nat), n.fields[i]? = some f →
    masks[i]? = some mask → ∀ value new, value < 2 ^ n.regWidth →
      f.replace mask value new < 2 ^ n.regWidth

theorem Node.IsSoundRegister.isPartedBy {n : Node} (h : n.IsSoundRegister) :
    n.fields.mapM Field.mask? = some (n.fields.map Field.bits) ∧
      n.IsPartedBy (n.fields.map Field.bits) := by
  have hwidth := Properties.regWidth_eq h.regWidth
  have hword : n.regWidth ≤ 64 := hwidth ▸ h.regWidth.2.2
  have hrange : ∀ f ∈ n.fields, f.lsb ≤ f.msb ∧ f.msb < n.regWidth := by
    rw [hwidth]
    exact fun f hf => (h.fields f hf).range
  have hmask : ∀ f ∈ n.fields, f.HasMask n.regWidth f.bits :=
    fun f hf => Field.hasMask_bits (hrange f hf) hword
  have hapart : (n.fields.map Field.bits).Pairwise fun a b => a &&& b = 0 := by
    rw [List.pairwise_map]
    refine h.apart.imp_of_mem fun hf hg hnot => ?_
    exact Field.bits_and_bits (hrange _ hf).1 (hrange _ hg).1 hnot
  have hbits {i : Nat} {f : Field} {mask : Nat} (hf : n.fields[i]? = some f)
      (hm : (n.fields.map Field.bits)[i]? = some mask) : f ∈ n.fields ∧ mask = f.bits := by
    rw [List.getElem?_map, hf] at hm
    exact ⟨List.mem_of_getElem? hf, (Option.some.inj hm).symm⟩
  have hlt : ∀ mask ∈ n.fields.map Field.bits, mask < 2 ^ n.regWidth :=
    List.forall_mem_map.2 fun f hf => (hmask f hf).mask_lt
  refine ⟨Field.mapM_mask? hmask, ?_⟩
  exact {
    hasMask := List.forall₂_map_right_iff.2 (List.forall₂_same.2 hmask)
    apart := hapart
    sum_eq := sum_eq_foldr_or hapart
    sum_le := Nat.le_sub_one_of_lt (sum_eq_foldr_or hapart ▸ foldr_or_lt hlt)
    read_self := by
      intro i f mask hf hm value new
      obtain ⟨hmem, rfl⟩ := hbits hf hm
      obtain ⟨hle, hend⟩ := hrange f hmem
      exact Field.read_replace_self (hmask f hmem) hle (by omega) value new
    read_other := by
      intro i j f g mask other hne hf hm hg ho value new
      exact Field.read_replace_of_apart (and_eq_zero_of_ne hapart hne hm ho) value new
    replace_lt := by
      intro i f mask hf hm value new hvalue
      obtain ⟨hmem, rfl⟩ := hbits hf hm
      exact Field.replace_lt (hmask f hmem).mask_lt hvalue new }

namespace Node

/-- The fields of a valid register have masks, which are parts of the register. -/
theorem masks_part_register {top : Node} (h : top.validate = .ok ()) :
    ∀ n ∈ top.subtree, n.kind = .reg →
      ∃ masks, n.fields.mapM Field.mask? = some masks ∧ n.IsPartedBy masks := by
  intro n hn hkind
  have hsound : n.IsSound := ((isValid_of_validate h).of_mem_subtree hn).isSound
  exact ⟨_, (hsound.ofRegister hkind).isPartedBy⟩

end Node

/-- A register with a field at each end. -/
def endsRegister : Node :=
  (((Node.reg "ends").withProperty "regwidth" (.int 64)).addField ⟨"last", 63, 63, {}⟩).addField
    ⟨"first", 0, 2, {}⟩

/-- A register that is a field as a whole. -/
def countRegister : Node :=
  { ((Node.reg "count").withProperty "regwidth" (.int 64)).addField ⟨"value", 0, 63, {}⟩ with
    offset := 8 }

def edgeMap : Node := ((Node.addrmap "chip").addChild endsRegister).addChild countRegister

theorem validate_edgeMap : edgeMap.validate = .ok () := by
  refine (Node.validateAt_eq_ok_iff_of_container (Or.inl rfl)).2 ⟨rfl, rfl, ?_⟩
  exact List.forall_mem_cons.2
    ⟨Node.validateAt_register rfl rfl rfl ⟨rfl, rfl, rfl⟩ (by decide), by decide +kernel⟩

/-- The last bit of a word is not cut off, nor is a field of a whole word. -/
theorem masks_part_register_of_edges :
    edgeMap.validate = .ok () ∧ endsRegister.IsPartedBy [2 ^ 63, 7] ∧
      countRegister.IsPartedBy [2 ^ 64 - 1] := by
  have hchild {n : Node} (hn : n = endsRegister ∨ n = countRegister) : n ∈ edgeMap.subtree :=
    Node.mem_subtree_of_child (by simpa [edgeMap, Node.addChild, Node.addrmap] using hn)
      n.mem_subtree_self
  have hparted := Node.masks_part_register validate_edgeMap
  obtain ⟨_, hends, hfirst⟩ := hparted endsRegister (hchild (Or.inl rfl)) rfl
  obtain ⟨_, hcount, hsecond⟩ := hparted countRegister (hchild (Or.inr rfl)) rfl
  have hmasks : endsRegister.fields.mapM Field.mask? = some [2 ^ 63, 7] := by decide +kernel
  have hmask : countRegister.fields.mapM Field.mask? = some [2 ^ 64 - 1] := by decide +kernel
  obtain rfl := Option.some.inj (hmasks.symm.trans hends)
  obtain rfl := Option.some.inj (hmask.symm.trans hcount)
  exact ⟨validate_edgeMap, hfirst, hsecond⟩

end RegisterMap
