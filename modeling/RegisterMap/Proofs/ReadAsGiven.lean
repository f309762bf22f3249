import RegisterMap.Proofs.FirstFault

/-!
What is read of a valid map is what its properties say. A word that stands for no access
does not pass, nor does a width out of range, so that no default takes their place. Only
a width that is no number passes, and is read as if it were absent.
-/

namespace RegisterMap

/-- The number that a value gives: a whole number, or a truth value as one or zero. -/
def PropertyValue.number? : PropertyValue → Option Nat
  | int n => some n
  | bool b => some b.toNat
  | text _ | encode _ => none

/-- The ways to write a hardware access. -/
def HardwareAccess.spellings : HardwareAccess → List String
  | rw => ["rw", "wr"]
  | r => ["r"]
  | w => ["w"]
  | na => ["na"]

/-- A word that is looked up among some is the word of what is found. -/
theorem word_of_find? {α : Type} {all : List α} {wordOf : α → String} {word : String} {a : α}
    (h : (all.find? fun a => wordOf a == word) = some a) : wordOf a = word := by
  simpa using List.find?_some h

theorem HardwareAccess.mem_spellings {word : String} {access : HardwareAccess}
    (h : ofWord? word = some access) : word ∈ access.spellings := by
  unfold ofWord? at h
  split at h
  case isTrue hother =>
    obtain rfl := Option.some.inj h
    simp [spellings, beq_iff_eq.1 hother]
  case isFalse =>
    obtain rfl := word_of_find? h
    cases access <;> simp [spellings, HardwareAccess.word]

namespace Properties

/-- A property that is absent or written in one of some ways. -/
def IsSpelled (p : Properties) (key : String) (spellings : List String) : Prop :=
  ∀ value, p.get? key = some value → ∃ word ∈ spellings, value = .text word

/-- A property that is absent or gives a number. -/
def IsNumber (p : Properties) (key : String) : Prop :=
  ∀ value, p.get? key = some value → value.number?.isSome = true

/-- A property that is absent, or the number that it gives is what is read. -/
def IsReadAs (p : Properties) (key : String) (read : Option Nat) : Prop :=
  ∀ value, p.get? key = some value → ∃ n, value.number? = some n ∧ read = some n

variable {p : Properties} {key : String}

theorem int?_eq (p : Properties) (key : String) :
    p.int? key = (p.get? key).bind PropertyValue.number? := by
  unfold int?
  cases p.get? key with
  | none => rfl
  | some value => cases value <;> rfl

/-- Of a word that passes its check the typed accessor gives what the word stands for. -/
theorem HasWord.isSpelled {α : Type} {ofWord? : String → Option α} (h : p.HasWord ofWord? key)
    {spellings : List String}
    (hspelled : ∀ word a, ofWord? word = some a → p.typed? ofWord? key = some a →
      word ∈ spellings) : p.IsSpelled key spellings := by
  intro value hvalue
  obtain ⟨word, a, rfl, hword⟩ := h value hvalue
  refine ⟨word, hspelled word a hword ?_, rfl⟩
  rw [typed?, text?, hvalue]
  exact hword

/-- The software access of a table is the one that is written in it. -/
theorem HasWord.access_isSpelled (h : p.HasWord SoftwareAccess.ofWord? "sw") :
    p.IsSpelled "sw" [((p.typed? SoftwareAccess.ofWord? "sw").getD .rw).word] := by
  refine h.isSpelled fun word access hword hread => ?_
  rw [hread, Option.getD_some, List.mem_singleton]
  exact (word_of_find? hword).symm

/-- A width that passes its check is not cut down. -/
theorem HasWidth.map_saturate (h : p.HasWidth key) :
    (p.int? key).map Word.saturate = p.int? key := by
  cases hint : p.int? key with
  | none => rfl
  | some width =>
    have hbounds := h width hint
    simp only [Option.map_some, Word.saturate, Option.some.injEq]
    omega

theorem HasRegWidth.hasWidth (h : p.HasRegWidth) : p.HasWidth "regwidth" := by
  intro width hint
  obtain ⟨hpos, _, hle⟩ := h
  rw [givenWidth, hint, Option.getD_some] at hpos hle
  rw [Word.narrowLimit]
  omega

/-- What is read is the number that is given, or else a fallback: then it is read as given
just if a number is, and the fallback takes the place of anything else. -/
theorem isReadAs_iff {read fallback : Option Nat} (h : read = (p.int? key).or fallback) :
    (p.IsReadAs key read ↔ p.IsNumber key) ∧ (¬ p.IsNumber key → read = fallback) := by
  rw [int?_eq] at h
  constructor
  · constructor
    · intro hread value hvalue
      obtain ⟨n, hn, _⟩ := hread value hvalue
      rw [hn, Option.isSome_some]
    · intro hnumber value hvalue
      obtain ⟨n, hn⟩ := Option.isSome_iff_exists.1 (hnumber value hvalue)
      refine ⟨n, hn, ?_⟩
      rw [h, hvalue, Option.bind_some, hn, Option.some_or]
  · intro hother
    have hnone : (p.get? key).bind PropertyValue.number? = none := by
      rw [Option.bind_eq_none_iff]
      intro value hvalue
      by_contra hsome
      refine hother fun other hsame => ?_
      rw [← Option.some.inj (hvalue.symm.trans hsame)]
      exact Option.isSome_iff_ne_none.2 hsome
    rw [h, hnone, Option.none_or]

end Properties

/-- The accesses of a field are what its properties say. -/
structure Field.IsReadAsGiven (f : Field) : Prop where
  sw : f.properties.IsSpelled "sw" [f.softwareAccess.word]
  hw : f.properties.IsSpelled "hw" f.hardwareAccess.spellings
  onread : f.properties.IsSpelled "onread" (f.readEffect?.map ReadEffect.word).toList
  onwrite : f.properties.IsSpelled "onwrite" (f.writeEffect?.map WriteEffect.word).toList

/-- Whatever the width of its register is, a sound field is read as given. -/
theorem Field.IsSound.isReadAsGiven {f : Field} {width : Nat} (h : f.IsSound width) :
    f.IsReadAsGiven where
  sw := h.sw.access_isSpelled
  hw := h.hw.isSpelled fun word access hword hread => by
    rw [hardwareAccess, hread, Option.getD_some]
    exact HardwareAccess.mem_spellings hword
  onread := h.onread.isSpelled fun word effect hword hread => by
    rw [readEffect?, hread, Option.map_some, Option.toList_some, List.mem_singleton]
    exact (word_of_find? hword).symm
  onwrite := h.onwrite.isSpelled fun word effect hword hread => by
    rw [writeEffect?, hread, Option.map_some, Option.toList_some, List.mem_singleton]
    exact (word_of_find? hword).symm

/-- A width as it is read of a node, with what is read where it is absent. -/
structure Width where
  key : String
  read : Option Nat
  fallback : Option Nat

namespace Node

/-- The widths that are read of a node by its kind. -/
def widths (n : Node) : List Width :=
  match n.kind with
  | .reg => [⟨"regwidth", some n.regWidth, some 32⟩,
      ⟨"accesswidth", some n.accessWidth, some n.regWidth⟩]
  | .mem => [⟨"memwidth", n.memWidth?, none⟩]
  | .addrmap | .regfile => []

theorem IsValid.isSound {n : Node} (h : n.IsValid) : n.IsSound := by
  obtain ⟨path, hpath⟩ := h
  rw [validateAt_eq_alone, Except.andThen_eq_ok_iff] at hpath
  exact (n.judges_checkAlone path).ok_iff.1 hpath.1

variable {n : Node}

theorem IsSound.ofRegister (h : n.IsSound) (hkind : n.kind = .reg) : n.IsSoundRegister := by
  have hofKind := h.ofKind
  rwa [IsSoundKind, hkind] at hofKind

theorem IsSound.ofMemory (h : n.IsSound) (hkind : n.kind = .mem) : n.IsSoundMemory := by
  have hofKind := h.ofKind
  rwa [IsSoundKind, hkind] at hofKind

theorem IsSound.fields_isReadAsGiven (h : n.IsSound) : ∀ f ∈ n.fields, f.IsReadAsGiven := by
  have hofKind := h.ofKind
  unfold IsSoundKind at hofKind
  intro f hf
  cases hkind : n.kind with
  | reg => exact ((h.ofRegister hkind).fields f hf).isReadAsGiven
  | mem => simp [(h.ofMemory hkind).fields] at hf
  | addrmap => simp_all
  | regfile => simp_all

/-- Every width of a sound node is the number that is given, or else its fallback. -/
theorem IsSound.read_eq (h : n.IsSound) {w : Width} (hw : w ∈ n.widths) :
    w.read = (n.properties.int? w.key).or w.fallback := by
  unfold widths at hw
  cases hkind : n.kind with
  | reg =>
    have hregister := h.ofRegister hkind
    simp only [hkind, List.mem_cons, List.not_mem_nil, or_false] at hw
    rcases hw with rfl | rfl
    · dsimp only
      rw [regWidth, hregister.regWidth.hasWidth.map_saturate]
      cases n.properties.int? "regwidth" <;> rfl
    · dsimp only
      rw [accessWidth, hregister.accessWidth.map_saturate]
      cases n.properties.int? "accesswidth" <;> rfl
  | mem =>
    simp only [hkind, List.mem_singleton] at hw
    subst hw
    rw [memWidth?, (h.ofMemory hkind).memWidth.map_saturate, Option.or_none]
  | addrmap => simp [hkind] at hw
  | regfile => simp [hkind] at hw

/-- In a valid map the accesses of a field and of a memory are those that are written, each
where its property is there. A width is the number that is given just if a number is given;
anything else is passed over, and the width is what it would be without the property. -/
theorem validated_is_read_as_given {top : Node} (h : top.validate = .ok ()) :
    ∀ m ∈ top.subtree,
      (∀ f ∈ m.fields, f.IsReadAsGiven) ∧
      (m.kind = .mem → m.properties.IsSpelled "sw" [m.softwareAccess.word]) ∧
      ∀ w ∈ m.widths,
        (m.properties.IsReadAs w.key w.read ↔ m.properties.IsNumber w.key) ∧
          (¬ m.properties.IsNumber w.key → w.read = w.fallback) := by
  intro m hm
  have hsound : m.IsSound := ((isValid_of_validate h).of_mem_subtree hm).isSound
  refine ⟨hsound.fields_isReadAsGiven, fun hkind => (hsound.ofMemory hkind).sw.access_isSpelled, ?_⟩
  exact fun w hw => Properties.isReadAs_iff (hsound.read_eq hw)

end Node

/-- A register of 64 bits that is accessed in 16, with a field that has a hardware access
written in its other way. -/
def statusRegister : Node :=
  let state : Field := Field.withProperty ⟨"state", 0, 1, {}⟩ "hw" (.text "wr")
  (((Node.reg "status").withProperty "regwidth" (.int 64)).withProperty
    "accesswidth" (.int 16)).addField (state.withProperty "onread" (.text "rclr"))

/-- A memory that can only be read, with words of a single bit. -/
def flagMemory : Node :=
  (Node.mem "flags" 4 1).withProperty "sw" (.text "r")

def givenMap : Node := ((Node.addrmap "chip").addChild statusRegister).addChild flagMemory

theorem givenMap_is_read_as_given :
    givenMap.validate = .ok () ∧
      (statusRegister.properties.IsReadAs "regwidth" (some 64) ∧
        statusRegister.properties.IsReadAs "accesswidth" (some 16) ∧
        ∀ f ∈ statusRegister.fields, f.IsReadAsGiven) ∧
      flagMemory.properties.IsSpelled "sw" ["r"] ∧
      flagMemory.properties.IsReadAs "memwidth" (some 1) := by
  have hvalid : givenMap.validate = .ok () := by decide +kernel
  have hread := Node.validated_is_read_as_given hvalid
  have hchild {n : Node} (hn : n ∈ givenMap.children) : n ∈ givenMap.subtree :=
    Node.mem_subtree_of_child hn n.mem_subtree_self
  obtain ⟨hfields, _, hwidths⟩ := hread statusRegister (hchild (by simp [givenMap, Node.addChild]))
  obtain ⟨_, haccess, hwords⟩ := hread flagMemory (hchild (by simp [givenMap, Node.addChild]))
  obtain ⟨hregWidth, _⟩ := hwidths ⟨"regwidth", some 64, some 32⟩ (List.mem_cons_self)
  obtain ⟨haccessWidth, _⟩ :=
    hwidths ⟨"accesswidth", some 16, some 64⟩ (List.mem_cons_of_mem _ List.mem_cons_self)
  obtain ⟨hmemWidth, _⟩ := hwords ⟨"memwidth", some 1, none⟩ List.mem_cons_self
  refine ⟨hvalid, ⟨hregWidth.2 ?_, haccessWidth.2 ?_, hfields⟩, haccess rfl, hmemWidth.2 ?_⟩
  · rintro _ ⟨⟩
    rfl
  · rintro _ ⟨⟩
    rfl
  · rintro _ ⟨⟩
    rfl

/-- A register whose width is written as a text. -/
def quotedRegister : Node := (Node.reg "r").withProperty "regwidth" (.text "64")

/-- Its map is valid, and the width is passed over. -/
theorem quotedRegister_is_passed_over :
    ((Node.addrmap "t").addChild quotedRegister).validate = .ok () ∧
      quotedRegister.properties.get? "regwidth" = some (.text "64") ∧
      quotedRegister.regWidth = 32 ∧
      ¬ quotedRegister.properties.IsReadAs "regwidth" (some quotedRegister.regWidth) := by
  refine ⟨by decide +kernel, rfl, rfl, fun hread => ?_⟩
  obtain ⟨n, hn, _⟩ := hread (.text "64") rfl
  cases hn

end RegisterMap
