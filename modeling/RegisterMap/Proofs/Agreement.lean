import Mathlib.Algebra.GroupWithZero.Nat
import RegisterMap.Proofs.Guards
import RegisterMap.Proofs.Html.Assets
import RegisterMap.Proofs.Ipxact.Stack
import RegisterMap.Proofs.KeepsWords
import RegisterMap.Proofs.Uvm.Closed

/-!
Which maps are exported. All outputs refuse the same maps: those in which a walk visits
a register array whose elements overlap. A map that fits the address space and has none
of these is exported by each of them, whatever its shape, as long as lists have room for
their items. Two of the outputs list elements: the constants go through all elements right
below another, with those of arrays among them, and a register model needs the offsets of
all elements of an array.
-/

namespace RegisterMap

open ExportM

variable {may : Stop → Prop}

/-! Constants. -/

namespace Header

/-- Nothing is asked of the constants that are defined so far. -/
def inOrder (_ : Unit) (_ : Draft) : Prop := True

theorem settles_define (path name value : String) :
    Settles inOrder (define path name value) True may := by
  apply Settles.built_bind
  intro _ d _
  cases d.valueOf? name with
  | none => exact .build fun _ _ => ⟨trivial, trivial⟩
  | some first =>
    simp only
    split
    · exact (Ensures.warn _).weaken (fun _ h => h) fun _ _ _ => ⟨trivial, trivial⟩
    · exact .pure fun _ _ => ⟨trivial, trivial⟩

theorem settles_defineMemory (hoverflow : may .overflow) (e : Element) (name : String) :
    Settles inOrder (defineMemory e name) True may :=
  (Settles.checked hoverflow).next fun _ _ =>
    (settles_define _ _ _).next fun _ _ => settles_define _ _ _

theorem guards (options : HeaderOptions) (hoverflow : may .overflow) :
    (emitter options).Guards inOrder inOrder (fun _ => True) may where
  overflow := hoverflow
  single _ _ := trivial
  start _ := ⟨(), .pure fun _ _ => trivial⟩
  block e inside fact hmem hinside := by
    refine (Settles.build fun _ _ _ => trivial).next fun _ _ => ?_
    split
    · next hkind => exact (settles_defineMemory hoverflow e _).imp fun _ => hmem hkind
    · exact hinside
  registerFile _ _ _ _ hinside := hinside.imp fun hfact => ⟨hfact, trivial⟩
  register _ e _ hmay hinside :=
    (settles_checkRegisterArray hmay).next fun hspaced _ =>
      (settles_define _ _ _).next fun _ _ => hinside.imp fun _ => ⟨hspaced, trivial⟩
  memory _ e := settles_defineMemory hoverflow e _
  field f _ e :=
    (Settles.checked hoverflow).next fun _ _ =>
      (settles_define _ _ _).next fun _ _ => settles_define _ _ _
  finish _ _ := .built_bind fun _ _ => .pure fun _ _ => trivial

end Header

/-! All four. -/

/-- A register array that is visited has elements that overlap. -/
def Node.HasOverlap (skip : Bool) (top : Node) : Prop :=
  ∃ m ∈ top.visited skip, m.kind = .reg ∧ ∃ a, m.array = some a ∧ a.stride < m.regWidth / 8

theorem Node.not_isSpaced_iff {n : Node} :
    ¬ n.IsSpaced ↔ ∃ a, n.array = some a ∧ a.stride < n.regWidth / 8 := by
  simp [IsSpaced]

instance (skip : Bool) (top : Node) : Decidable (top.HasOverlap skip) :=
  decidable_of_iff (∃ m ∈ top.visited skip, m.kind = .reg ∧ ¬ m.IsSpaced) <| by
    simp only [Node.HasOverlap, Node.not_isSpaced_iff]

/-- An export fails because of an overlap if it is refused, and yields an artifact if not. -/
structure Decides (refused : Prop) (outcome : Except Stop Artifact) : Prop where
  fails : refused →
    ∃ path stride size, outcome = .error (.failed (.overlappingArray path stride size))
  succeeds : ¬ refused → ∃ a, outcome = .ok a

/-- A walk stops at an overlap that it visits, unless something overflows, and it gets to
its end only past no overlap and past nothing that the emitter does not take. -/
theorem Emitter.stops_at_overlap {σ ι κ : Type} {em : Emitter σ} {idle : ι → σ → Prop}
    {registering : κ → σ → Prop} {taken : Node → Prop}
    (hguards : ∀ may : Stop → Prop, may .overflow → em.Guards idle registering taken may)
    {top : Node} (hkind : top.kind.canBeTop = true) (hvalid : top.validate = .ok ())
    (destination : Path) :
    match (em.produce top destination).1 with
    | .ok _ => ¬ top.HasOverlap em.options.skipAbsent ∧
      ∀ m ∈ top.visitedBelow em.options.skipAbsent, taken m
    | .error reason => reason = .overflow ∨ top.HasOverlap em.options.skipAbsent ∧
      ∃ path stride size, reason = .failed (.overlappingArray path stride size) := by
  let refusal (reason : Stop) : Prop := top.HasOverlap em.options.skipAbsent ∧
    ∃ path stride size, reason = .failed (.overlappingArray path stride size)
  have hmay : ∀ q ∈ Element.allBelow em.options top, q.node.kind = .reg →
      q.MayRefuse fun reason => reason = .overflow ∨ refusal reason := by
    intro q hq hreg stride size hcheck
    have hoverlaps : ¬ q.node.IsSpaced := fun hspaced =>
      q.node.isSpaced_iff.1 hspaced stride size hcheck
    have hvisited : q.node ∈ top.visited em.options.skipAbsent :=
      Element.node_mem_visited (e := .top top) hq
    exact Or.inr ⟨⟨q.node, hvisited, hreg, Node.not_isSpaced_iff.1 hoverlaps⟩, _, _, _, rfl⟩
  have hproduce := (hguards _ (Or.inl rfl)).produce hkind hvalid hmay destination
  cases houtcome : (em.produce top destination).1 with
  | error reason => rwa [houtcome] at hproduce
  | ok a =>
    rw [houtcome] at hproduce
    refine ⟨?_, fun m hm => (hproduce m hm).2⟩
    rintro ⟨m, hm, hreg, hoverlaps⟩
    rw [Node.visited_eq] at hm
    rcases List.mem_cons.1 hm with rfl | hm
    · simp [hreg, Kind.canBeTop] at hkind
    · exact Node.not_isSpaced_iff.2 hoverlaps ((hproduce m hm).1 hreg)

/-- Where nothing overflows, an overlap alone decides. -/
theorem Emitter.decides {σ ι κ : Type} {em : Emitter σ} {idle : ι → σ → Prop}
    {registering : κ → σ → Prop} {taken : Node → Prop}
    (hguards : ∀ may : Stop → Prop, may .overflow → em.Guards idle registering taken may)
    {top : Node} (hkind : top.kind.canBeTop = true) (hvalid : top.validate = .ok ())
    (destination : Path) (hwords : (em.produce top destination).1 ≠ .error .overflow) :
    Decides (top.HasOverlap em.options.skipAbsent) (em.produce top destination).1 := by
  have hstops := Emitter.stops_at_overlap hguards hkind hvalid destination
  cases houtcome : (em.produce top destination).1 with
  | ok a =>
    rw [houtcome] at hstops
    exact ⟨fun hoverlap => absurd hoverlap hstops.1, fun _ => ⟨a, rfl⟩⟩
  | error reason =>
    rw [houtcome] at hstops
    rcases hstops with rfl | ⟨hoverlap, path, stride, size, rfl⟩
    · exact absurd houtcome hwords
    · exact ⟨fun _ => ⟨path, stride, size, rfl⟩, fun hnot => absurd hoverlap hnot⟩

/-- An array that is visited below the top has more elements than can be listed. -/
def Node.HasHugeArray (skip : Bool) (top : Node) : Prop :=
  ∃ m ∈ top.visitedBelow skip, Word.listLimit ≤ m.elementCount

instance (skip : Bool) (top : Node) : Decidable (top.HasHugeArray skip) :=
  inferInstanceAs (Decidable (∃ m ∈ top.visitedBelow skip, Word.listLimit ≤ m.elementCount))

/-- The bytes of an element in a list: three words for its node and its addresses, and three
more for each of its index and its path. -/
def Element.bytes : Nat := 9 * Word.bytes

/-- As long as there are fewer elements than this, a list of them has room for one more: it
doubles when it is full, and its size in bytes is a word of the lower half. -/
def Element.listLimit : Nat := Word.limit / 2 / (2 * Element.bytes)

/-- How many elements a walk meets right below one. -/
def Node.metBelow (n : Node) (options : WalkOptions) : Nat :=
  (n.children.map fun child => child.metCount options).sum

/-- Right below a node that is visited there are more elements than can be listed, if those of
arrays are met one by one. -/
def Node.HasLongLevel (skip : Bool) (top : Node) : Prop :=
  ∃ m ∈ top.visited skip, Element.listLimit ≤ m.metBelow { skipAbsent := skip, unroll := true }

instance (skip : Bool) (top : Node) : Decidable (top.HasLongLevel skip) :=
  inferInstanceAs (Decidable (∃ m ∈ top.visited skip,
    Element.listLimit ≤ m.metBelow { skipAbsent := skip, unroll := true }))

/-- A register model does not get past an array that cannot be listed. -/
theorem Uvm.stops_at_hugeArray (options : UvmOptions) {top : Node}
    (hkind : top.kind.canBeTop = true) (hvalid : top.validate = .ok ()) (destination : Path)
    (hhuge : top.HasHugeArray options.skipAbsent) :
    let outcome := ((emitter options).produce top destination).1
    outcome = .error .overflow ∨ top.HasOverlap options.skipAbsent ∧
      ∃ path stride size, outcome = .error (.failed (.overlappingArray path stride size)) := by
  intro outcome
  have hstops := Emitter.stops_at_overlap (fun _ h => guards options h) hkind hvalid destination
  cases houtcome : ((emitter options).produce top destination).1 with
  | ok a =>
    rw [houtcome] at hstops
    obtain ⟨m, hm, hlarge⟩ := hhuge
    exact absurd (hstops.2 m hm) (Nat.not_lt.2 hlarge)
  | error reason =>
    rw [houtcome] at hstops
    rcases hstops with rfl | ⟨hoverlap, path, stride, size, rfl⟩
    · exact Or.inl houtcome
    · exact Or.inr ⟨hoverlap, path, stride, size, houtcome⟩

/-- All exports of a valid map that fits the address space are refused for the same reason,
a visited register array whose elements overlap, and succeed otherwise. For the constants
this is about maps only whose elements can be listed level by level. A register model has no
place for an array with more elements than can be listed: where one is visited, its export
overflows, or is refused for an overlap that it meets first. -/
theorem Node.exports_agree {top : Node} (hkind : top.kind.canBeTop = true)
    (hvalid : top.validate = .ok ()) (hfits : top.FitsAddressSpace) (skip : Bool) :
    (¬ top.HasLongLevel skip → ∀ options destination, options.skipAbsent = skip →
      Decides (top.HasOverlap skip) ((Header.emitter options).produce top destination).1) ∧
    (∀ options destination, options.skipAbsent = skip →
      Decides (top.HasOverlap skip) ((Ipxact.emitter options).produce top destination).1) ∧
    (∀ setup destination, setup.options.skipAbsent = skip → setup.renderer = .plainText →
      Decides (top.HasOverlap skip) ((Html.emitter setup).produce top destination).1) ∧
    (∀ options destination, options.skipAbsent = skip →
      let outcome := ((Uvm.emitter options).produce top destination).1
      (¬ top.HasHugeArray skip → Decides (top.HasOverlap skip) outcome) ∧
      (top.HasHugeArray skip → outcome = .error .overflow ∨ top.HasOverlap skip ∧
        ∃ path stride size, outcome = .error (.failed (.overlappingArray path stride size)))) := by
  have hall : ∀ m ∈ top.subtree, True := fun _ _ => trivial
  refine ⟨?_, ?_, ?_, ?_⟩
  · rintro - options destination rfl
    have hwords := (Header.keepsWords options).produce_ne_overflow hfits hall destination
    exact Emitter.decides (fun _ h => Header.guards options h) hkind hvalid destination hwords
  · rintro options destination rfl
    have hwords := (Ipxact.keepsWords options).produce_ne_overflow hfits hall destination
    exact Emitter.decides (fun _ h => Ipxact.guards options h) hkind hvalid destination hwords
  · rintro setup destination rfl hplain
    have hwords := (Html.keepsWords setup).produce_ne_overflow hfits hall destination
    exact Emitter.decides (fun _ h => Html.guards h (Html.mayMissImages_plainText hplain))
      hkind hvalid destination hwords
  · rintro options destination rfl
    refine ⟨fun hnone => ?_, fun hhuge => ?_⟩
    · have hlisted : ∀ m ∈ top.visitedBelow options.skipAbsent, m.elementCount < Word.listLimit :=
        fun m hm => Nat.lt_of_not_le fun hlarge => hnone ⟨m, hm, hlarge⟩
      have hwords :=
        (Uvm.keepsWords options).produce_ne_overflow_of_visited hfits hlisted destination
      exact Emitter.decides (fun _ h => Uvm.guards options h) hkind hvalid destination hwords
    · exact Uvm.stops_at_hugeArray options hkind hvalid destination hhuge

/-- A register array that overlaps but is not present, in front of a register. -/
def absentOverlap : Node :=
  let absent : Node := { Node.reg "a" with array := some ⟨[2], 2⟩ }
  ((Node.addrmap "t").addChild (absent.withProperty "ispresent" (.bool false))).addChild
    { Node.reg "b" with offset := 8 }

/-- It is in the way of every output, unless absent nodes are skipped. -/
theorem absentOverlap_exports_agree :
    absentOverlap.HasOverlap false ∧ ¬ absentOverlap.HasOverlap true ∧
      ∀ view destination,
        ¬ (∃ a, ((Header.emitter {}).produce absentOverlap destination).1 = .ok a) ∧
        (∃ a, ((Header.emitter { skipAbsent := true }).produce absentOverlap destination).1 =
          .ok a) ∧
        (∃ a, ((Ipxact.emitter { skipAbsent := true }).produce absentOverlap destination).1 =
          .ok a) ∧
        (∃ a, ((Html.emitter ⟨{}, .plainText, view⟩).produce absentOverlap destination).1 =
          .ok a) ∧
        ∃ a, ((Uvm.emitter { skipAbsent := true }).produce absentOverlap destination).1 =
          .ok a := by
  have hvalid : absentOverlap.validate = .ok () := by decide +kernel
  have hfits : absentOverlap.FitsAddressSpace := by decide
  have hoverlap : absentOverlap.HasOverlap false := by decide
  have hnone : ¬ absentOverlap.HasOverlap true := by decide
  have hshort : ¬ absentOverlap.HasLongLevel false := by decide
  have hshort' : ¬ absentOverlap.HasLongLevel true := by decide
  have hlisted : ¬ absentOverlap.HasHugeArray true := by decide
  obtain ⟨hheader, _, _, _⟩ := Node.exports_agree rfl hvalid hfits false
  obtain ⟨hheader', hipxact, hhtml, huvm⟩ := Node.exports_agree rfl hvalid hfits true
  refine ⟨hoverlap, hnone, fun view destination => ⟨?_, ?_, ?_, ?_, ?_⟩⟩
  · obtain ⟨_, _, _, hfailed⟩ := (hheader hshort {} destination rfl).fails hoverlap
    simp [hfailed]
  · exact (hheader' hshort' _ destination rfl).succeeds hnone
  · exact (hipxact _ destination rfl).succeeds hnone
  · exact (hhtml ⟨{}, .plainText, view⟩ destination rfl rfl).succeeds hnone
  · exact ((huvm { skipAbsent := true } destination rfl).1 hlisted).succeeds hnone

/-- A memory with more elements than can be listed, in front of registers that overlap. -/
def hugeMemory : Node :=
  let memory : Node := { name := "m", kind := .mem, array := some ⟨[1152921504606846976], 0⟩ }
  let pair : Node := { name := "r", kind := .reg, array := some ⟨[2], 2⟩ }
  { name := "t", kind := .addrmap, children := [memory, pair] }

/-- The register model of such a map is not refused for the overlap: it stops at the memory. -/
theorem hugeMemory_stops :
    hugeMemory.kind.canBeTop = true ∧ hugeMemory.validate = .ok () ∧
      hugeMemory.FitsAddressSpace ∧ hugeMemory.HasOverlap false ∧
      ((Uvm.emitter {}).produce hugeMemory ⟨"t.sv"⟩).1 = .error .overflow ∧
      ¬ Decides (hugeMemory.HasOverlap false)
        ((Uvm.emitter {}).produce hugeMemory ⟨"t.sv"⟩).1 := by
  have hoverlap : hugeMemory.HasOverlap false := by decide
  have hstops : ((Uvm.emitter {}).produce hugeMemory ⟨"t.sv"⟩).1 = .error .overflow := by
    rw [Emitter.produce_eq _ rfl (by decide +kernel)]
    rfl
  refine ⟨rfl, by decide +kernel, by decide, hoverlap, hstops, fun hdecides => ?_⟩
  obtain ⟨_, _, _, hfailed⟩ := hdecides.fails hoverlap
  rw [hstops] at hfailed
  cases hfailed

end RegisterMap
