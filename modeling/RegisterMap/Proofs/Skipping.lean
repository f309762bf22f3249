import RegisterMap.Header.Emitter
import RegisterMap.Html.Emitter
import RegisterMap.Ipxact.Emitter
import RegisterMap.Proofs.Pruned
import RegisterMap.Uvm.Emitter

/-!
Outputs that pass over what is absent. No output looks at the contents of a node except
through its walk, but for the size of a container that does not say how large it is. So it
makes no difference whether absent nodes are passed over or taken out of the map before.
-/

namespace RegisterMap

theorem checkRegisterArray_pruned {σ : Type} (e : Element) :
    (checkRegisterArray e.pruned : ExportM σ StrideCheck) = checkRegisterArray e := by
  rw [e.pruned_eq]
  rfl

namespace Header

theorem defineMemory_pruned {e : Element} (h : e.node.kind = .mem) (name : String) :
    defineMemory e.pruned name = defineMemory e name := by
  have hsize : e.pruned.node.size? = e.node.size? := Node.size?_pruned (Node.isSized_of_memory h)
  unfold defineMemory
  rw [hsize]
  rfl

theorem skips (options : HeaderOptions) :
    (emitter { options with skipAbsent := true }).Skips
      (emitter { options with skipAbsent := false }) fun _ => True where
  skips := rfl
  options_eq := rfl
  initial_eq := rfl
  start_eq _ := rfl
  block_eq e inside _ := by
    have hkind : e.pruned.node.kind = e.node.kind := e.node.kind_pruned
    have hident : e.pruned.ident = e.ident := by
      rw [e.pruned_eq]
      rfl
    simp only [emitter, hkind, hident]
    split
    case isTrue hmem =>
      rw [defineMemory_pruned hmem]
      rfl
    case isFalse => rfl
  registerFile_eq _ _ _ _ := rfl
  register_eq e parent inside _ := by
    rw [e.pruned_eq, parent.pruned_eq]
    rfl
  memory_eq e parent hmem _ := by
    refine (defineMemory_pruned hmem _).trans ?_
    rw [e.pruned_eq, parent.pruned_eq]
    rfl
  field_eq f access e := by
    rw [e.pruned_eq]
    rfl
  finish_eq _ := rfl

end Header

namespace Uvm

theorem skips (options : UvmOptions) :
    (emitter { options with skipAbsent := true }).Skips
      (emitter { options with skipAbsent := false }) fun _ => True where
  skips := rfl
  options_eq := rfl
  initial_eq := rfl
  start_eq context := by
    simp only [emitter, Node.name_pruned]
  block_eq e inside _ := by
    rw [e.pruned_eq]
    rfl
  registerFile_eq e parent inside _ := by
    rw [e.pruned_eq]
    rfl
  register_eq e parent inside _ := by
    rw [e.pruned_eq]
    rfl
  memory_eq e parent _ _ := by
    rw [e.pruned_eq]
    rfl
  field_eq f access e := by
    rw [e.pruned_eq]
    rfl
  finish_eq context := by
    simp only [emitter, Node.name_pruned]
    rfl

end Uvm

namespace Ipxact

theorem skips (options : IpxactOptions) :
    (emitter { options with skipAbsent := true }).Skips
      (emitter { options with skipAbsent := false }) Node.IsSized where
  skips := rfl
  options_eq := rfl
  initial_eq := rfl
  start_eq context := by
    change memoryMap _ { context with top := context.top.pruned } = memoryMap _ context
    rw [Node.pruned_eq]
    rfl
  block_eq e inside hsized := by
    have hsize : e.pruned.node.size? = e.node.size? := Node.size?_pruned hsized
    simp only [emitter, addressBlock, hsize]
    rw [e.pruned_eq]
    rfl
  registerFile_eq e parent inside hsized := by
    have hrange : e.pruned.node.rangeSize? = e.node.rangeSize? := Node.rangeSize?_pruned hsized
    simp only [emitter, registerFile, hrange]
    rw [e.pruned_eq]
    rfl
  register_eq e parent inside _ := by
    rw [e.pruned_eq]
    rfl
  memory_eq e parent _ _ := rfl
  field_eq _ _ _ := rfl
  finish_eq context := by
    simp only [emitter, Node.name_pruned]
    rfl

end Ipxact

namespace Html

/-- A setup with another choice about what is absent. -/
def Setup.withSkipping (setup : Setup) (skipAbsent : Bool) : Setup :=
  { setup with options := { setup.options with skipAbsent } }

/-- The rows of a container are those of the children that its walk meets. -/
theorem childRows_pruned (setup : Setup) (e : Element) (ids : Array Nat) :
    childRows (e.pruned.children (walkOptions (setup.withSkipping false).options)) ids =
      childRows (e.children (walkOptions (setup.withSkipping true).options)) ids := by
  have hskips : (walkOptions (setup.withSkipping true).options).skipAbsent = true := rfl
  have hrow (c : Element) (id : Nat) : ({
      id, offset := c.pruned.offset, ident := arrayIdent c.pruned,
      displayName := c.pruned.node.displayName? } : ChildRow) =
        { id, offset := c.offset, ident := arrayIdent c, displayName := c.node.displayName? } := by
    rw [c.pruned_eq]
    rfl
  change childRows
    (e.pruned.children (walkOptions (setup.withSkipping true).options).complete) ids = _
  rw [Element.children_pruned hskips, childRows, childRows, List.zip_map_left, List.map_map]
  exact List.map_congr_left fun row _ => hrow row.1 row.2

theorem visitNode_pruned (setup : Setup) {e : Element} (hsized : e.node.IsSized)
    (inside : HtmlM Unit) :
    visitNode (setup.withSkipping false) e.pruned inside =
      visitNode (setup.withSkipping true) e inside := by
  have hsize : e.pruned.node.size? = e.node.size? := Node.size?_pruned hsized
  unfold visitNode
  simp only [hsize, childRows_pruned]
  rw [e.pruned_eq]
  rfl

theorem skips (setup : Setup) :
    (emitter (setup.withSkipping true)).Skips (emitter (setup.withSkipping false))
      Node.IsSized where
  skips := rfl
  options_eq := rfl
  initial_eq := rfl
  start_eq _ := rfl
  block_eq _ inside hsized := visitNode_pruned setup hsized inside
  registerFile_eq _ _ inside hsized := visitNode_pruned setup hsized inside
  register_eq e parent inside hsized := by
    simp only [emitter, checkRegisterArray_pruned, visitNode_pruned setup hsized]
  memory_eq _ _ _ hsized := visitNode_pruned setup hsized _
  field_eq f access e := rfl
  finish_eq context := by
    have htitle (options : HtmlOptions) : titleOf options context.top.pruned =
        titleOf options context.top := by
      rw [Node.pruned_eq]
      rfl
    simp only [emitter, htitle]
    rfl

end Html

/-- An output that passes over what is absent is that of the pruned map, with the same outcome,
the same messages and the same effect on any files. A split top must not become one that is
not split, or the other way round; a reference never splits its top. Where sizes are shown, a
container has to say how large it is, since its size follows from its contents otherwise. -/
theorem Node.skipping_exports_pruned {m : Type → Type} [Monad m] (fs : FileSystem m)
    (destination : Path) {top : Node} (hvalid : top.validate = .ok ()) :
    (Explosion.decide top = Explosion.decide top.pruned →
      (∀ options : HeaderOptions,
        (Header.emitter { options with skipAbsent := true }).run fs top destination =
          (Header.emitter { options with skipAbsent := false }).run fs top.pruned destination) ∧
      ∀ options : UvmOptions,
        (Uvm.emitter { options with skipAbsent := true }).run fs top destination =
          (Uvm.emitter { options with skipAbsent := false }).run fs top.pruned destination) ∧
    ((∀ n ∈ top.subtree, n.IsSized) →
      (Explosion.decide top = Explosion.decide top.pruned → ∀ options : IpxactOptions,
        (Ipxact.emitter { options with skipAbsent := true }).run fs top destination =
          (Ipxact.emitter { options with skipAbsent := false }).run fs top.pruned destination) ∧
      ∀ setup : Html.Setup,
        (Html.emitter (setup.withSkipping true)).run fs top destination =
          (Html.emitter (setup.withSkipping false)).run fs top.pruned destination) := by
  have hall : ∀ n ∈ top.subtree, True := fun _ _ => trivial
  refine ⟨fun hdecide => ⟨fun options => ?_, fun options => ?_⟩,
    fun hsized => ⟨fun hdecide options => ?_, fun setup => ?_⟩⟩
  · exact (Header.skips options).run_eq fs hvalid hall hdecide.symm destination
  · exact (Uvm.skips options).run_eq fs hvalid hall hdecide.symm destination
  · exact (Ipxact.skips options).run_eq fs hvalid hsized hdecide.symm destination
  · exact (Html.skips setup).run_eq fs hvalid hsized rfl destination

/-- A register with a field that is not present, besides one that is not present itself. -/
def spareMap : Node :=
  let spareField : Field := { name := "spare", lsb := 8, msb := 8 }
  let ctrl := (Node.reg "ctrl").addField { name := "en", lsb := 0, msb := 0 }
  let group : Node := { Node.regfile "group" with size := some 16, offset := 16 }
  { Node.addrmap "chip" with
    size := some 64
    children := [
      ctrl.addField
        { spareField with properties := spareField.properties.set "ispresent" (.bool false) },
      { (Node.reg "old").withProperty "ispresent" (.bool false) with offset := 4 },
      (group.addChild (Node.reg "data")).withProperty "ispresent" (.bool false)] }

theorem validate_spareMap : spareMap.validate = .ok () := by
  refine (Node.validateAt_eq_ok_iff_of_container (Or.inl rfl)).2 ⟨rfl, rfl, ?_⟩
  exact List.forall_mem_cons.2
    ⟨Node.validateAt_register rfl rfl rfl ⟨rfl, rfl, rfl⟩ (by decide), by decide +kernel⟩

/-- All four outputs are those of a map with one register that has one field. -/
theorem skipping_exports_pruned_of_spareMap :
    (spareMap.pruned.children.map fun n => (n.name, n.fields.map Field.name)) =
        [("ctrl", ["en"])] ∧
      (Header.emitter { skipAbsent := true }).run Disk.fileSystem spareMap ⟨"chip.h"⟩ =
        (Header.emitter {}).run Disk.fileSystem spareMap.pruned ⟨"chip.h"⟩ ∧
      (Uvm.emitter { skipAbsent := true }).run Disk.fileSystem spareMap ⟨"chip.sv"⟩ =
        (Uvm.emitter {}).run Disk.fileSystem spareMap.pruned ⟨"chip.sv"⟩ ∧
      (Ipxact.emitter { skipAbsent := true }).run Disk.fileSystem spareMap ⟨"chip.xml"⟩ =
        (Ipxact.emitter {}).run Disk.fileSystem spareMap.pruned ⟨"chip.xml"⟩ ∧
      (Html.emitter ⟨{ skipAbsent := true }, .plainText, .empty⟩).run Disk.fileSystem spareMap
          ⟨"chip"⟩ =
        (Html.emitter ⟨{ skipAbsent := false }, .plainText, .empty⟩).run Disk.fileSystem
          spareMap.pruned ⟨"chip"⟩ := by
  have hdecide : Explosion.decide spareMap = Explosion.decide spareMap.pruned := by decide
  have hsized : ∀ n ∈ spareMap.subtree, n.IsSized := by decide
  refine ⟨by decide, ?_, ?_, ?_, ?_⟩
  · exact ((Node.skipping_exports_pruned _ _ validate_spareMap).1 hdecide).1 {}
  · exact ((Node.skipping_exports_pruned _ _ validate_spareMap).1 hdecide).2 {}
  · exact ((Node.skipping_exports_pruned _ _ validate_spareMap).2 hsized).1 hdecide {}
  · exact ((Node.skipping_exports_pruned _ _ validate_spareMap).2 hsized).2 ⟨{}, .plainText, .empty⟩

end RegisterMap
