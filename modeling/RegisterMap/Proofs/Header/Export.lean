import RegisterMap.Proofs.Header.Exact
import RegisterMap.Proofs.Produce

/-!
The header of a map. The emitter takes the elements of the walk one after another,
and so the header holds the first constant of each name, in the order of the walk,
while every conflict is warned about once. All of this is read back from the lines of
the text, where each constant is one directive of the dialect.
-/

namespace RegisterMap

namespace Header

open ExportM

/-- The comment that starts an address block. -/
def announce (explosion : Explosion) (o : Occurrence) : HeaderM Unit :=
  if o.isBlock explosion then .build (·.addBlock o.element.path) else pure ()

/-- The constants of an occurrence, without those below it. -/
def defineAll (options : HeaderOptions) (explosion : Explosion) (o : Occurrence) : HeaderM Unit :=
  match o.element.node.kind with
  | .addrmap | .regfile => pure ()
  | .reg => do
    let _ ← checkRegisterArray o.element
    define o.element.path (constantName explosion o) (Text.hex o.element.address)
    (emitter options).fields o.element
  | .mem => defineMemory o.element (constantName explosion o)

/-- What the emitter does at an occurrence. -/
def record (options : HeaderOptions) (explosion : Explosion) (o : Occurrence) : HeaderM Unit := do
  announce explosion o
  defineAll options explosion o

theorem adds_fields (options : HeaderOptions) (e : Element) :
    Adds ((emitter options).fields e)
      (((e.node.metFields (walkOptions options)).mapM (fieldConstants? e.node)).map
        List.flatten) :=
  adds_forM fun f _ => adds_defineField f e

theorem adds_defineAll (options : HeaderOptions) (explosion : Explosion) {o : Occurrence}
    (hspaced : o.element.node.kind = .reg → o.element.node.IsSpaced) :
    Adds (defineAll options explosion o) (constants? (walkOptions options) explosion o) := by
  unfold defineAll constants?
  cases hn : o.element.node.kind with
  | addrmap => exact adds_pure
  | regfile => exact adds_pure
  | reg =>
    apply adds_of_frame
    · intro s
      exact ⟨_, _, yields_checkRegisterArray.2 ⟨hspaced hn, rfl, rfl⟩, s.state_tellGap _,
        s.warnings_tellGap _⟩
    · exact (adds_define _ _ _).andThen (adds_fields options o.element)
  | mem => exact adds_defineMemory o.element (constantName explosion o)

theorem adds_announce (explosion : Explosion) (o : Occurrence) :
    Adds (announce explosion o) (some []) := by
  cases hblock : o.isBlock explosion with
  | true =>
    intro s constants h
    refine ⟨{ s with state := s.state.addBlock o.element.path }, ?_, ?_⟩
    · simp [announce, hblock]
    · rw [List.append_nil]
      exact ⟨h.holds.addBlock o.element.path, h.warnings_eq⟩
  | false =>
    rw [announce, hblock]
    exact adds_pure

theorem adds_record (options : HeaderOptions) (explosion : Explosion) {o : Occurrence}
    (hspaced : o.element.node.kind = .reg → o.element.node.IsSpaced) :
    Adds (record options explosion o) (constants? (walkOptions options) explosion o) := by
  have hboth := (adds_announce explosion o).andThen (adds_defineAll options explosion hspaced)
  simpa [record] using hboth

theorem record_of_not_block (options : HeaderOptions) {explosion : Explosion} {o : Occurrence}
    (h : o.isBlock explosion = false) :
    record options explosion o = defineAll options explosion o := by
  rw [record, announce, h]
  simp

/-! The emitter takes the elements one after another. -/

/-- What the walk below an occurrence needs: a valid node, and words for addresses. -/
structure Runs (options : HeaderOptions) (o : Occurrence) : Prop where
  isValid : o.element.node.IsValid
  fits : ∀ q ∈ o.walk (walkOptions options), q.element.address < Word.limit

theorem Runs.inside {options : HeaderOptions} {o : Occurrence} (h : Runs options o) {e : Element}
    (he : e ∈ o.element.children (walkOptions options)) : Runs options (o.inside e) :=
  ⟨Element.isValid_of_mem_children h.isValid he,
    fun q hq => h.fits q (Occurrence.mem_walk_of_child he hq)⟩

/-- What is met below an element is what is met from its children, in order. -/
theorem below_eq_forM {options : HeaderOptions} (explosion : Explosion) {o : Occurrence}
    (hruns : Runs options o)
    (hmeet : ∀ e ∈ o.element.children (walkOptions options),
      (emitter options).meet o.element e =
        forM ((o.inside e).walk (walkOptions options)) (record options explosion)) :
    (emitter options).below o.element =
      forM ((o.children (walkOptions options)).flatMap (Occurrence.walk (walkOptions options)))
        (record options explosion) := by
  have hfit : ∀ c ∈ o.element.children (emitter options).options, c.address < Word.limit :=
    fun c hc => (hruns.inside hc).fits _ (Occurrence.mem_walk_self _ _)
  rw [Emitter.below_eq, Emitter.needing_of_fit _ _ hfit, Occurrence.children, List.flatMap_map,
    forM_flatMap]
  exact forM_congr hmeet

theorem meet_eq_forM (options : HeaderOptions) (explosion : Explosion) (e : Element) :
    ∀ o : Occurrence, explosion.depth ≤ o.above.length → Runs options (o.inside e) →
      (emitter options).meet o.element e =
        forM ((o.inside e).walk (walkOptions options)) (record options explosion) := by
  induction e using Element.induction (walkOptions options) with
  | step e ih =>
    intro o hdepth hruns
    have hblock : (o.inside e).isBlock explosion = false := by
      simp only [Occurrence.isBlock, Occurrence.inside, List.length_cons, beq_eq_false_iff_ne]
      omega
    have hcontainer (hkind : e.node.kind = .addrmap ∨ e.node.kind = .regfile) :
        (emitter options).meet o.element e =
          forM ((o.inside e).walk (walkOptions options)) (record options explosion) := by
      have hbelow := below_eq_forM explosion hruns fun c hc =>
        ih c hc (o.inside e) (Nat.le_succ_of_le hdepth) (hruns.inside hc)
      have hnothing : defineAll options explosion (o.inside e) = pure () := by
        unfold defineAll
        rcases hkind with h | h <;> simp [Occurrence.inside, h]
      rw [Emitter.meet_of_container _ hkind, Occurrence.walk_eq, List.forM_cons,
        record_of_not_block options hblock, hnothing, pure_bind, ← hbelow]
      rfl
    have hleaf (hchildren : e.node.children = [])
        (hmeet : (emitter options).meet o.element e =
          defineAll options explosion (o.inside e)) :
        (emitter options).meet o.element e =
          forM ((o.inside e).walk (walkOptions options)) (record options explosion) := by
      rw [Occurrence.walk_of_childless (o := o.inside e) hchildren, hmeet, List.forM_cons,
        List.forM_nil, record_of_not_block options hblock, bind_pure_unit]
    have hname : constantName explosion (o.inside e) =
        Identifier.macroName [o.element.ident, e.ident] := by
      simp only [constantName, Occurrence.owner?, hblock]
      rfl
    cases hkind : e.node.kind with
    | addrmap => exact hcontainer (Or.inl hkind)
    | regfile => exact hcontainer (Or.inr hkind)
    | reg =>
      apply hleaf (hruns.isValid.children_of_register hkind)
      rw [Emitter.meet_of_register _ hkind]
      simp only [defineAll, Occurrence.element_inside, hkind, hname]
      rfl
    | mem =>
      apply hleaf (hruns.isValid.children_of_memory hkind)
      rw [Emitter.meet_of_memory _ hkind]
      simp only [defineAll, Occurrence.element_inside, hkind, hname]
      rfl

/-- A block takes a memory by itself, and else what is met below it. -/
theorem visitBlock_eq_forM (options : HeaderOptions) {explosion : Explosion} {o : Occurrence}
    (hblock : o.isBlock explosion = true) (hkind : o.element.node.kind.canBeTop = true)
    (hruns : Runs options o) :
    (emitter options).visitBlock o.element =
      forM (o.walk (walkOptions options)) (record options explosion) := by
  have hdepth : explosion.depth ≤ o.above.length := Nat.le_of_eq (beq_iff_eq.1 hblock).symm
  have hannounce : announce explosion o = .build (·.addBlock o.element.path) := by
    rw [announce, hblock, if_pos rfl]
  rw [Emitter.visitBlock_eq]
  cases hn : o.element.node.kind with
  | addrmap =>
    have hbelow := below_eq_forM explosion hruns fun c hc =>
      meet_eq_forM options explosion c o hdepth (hruns.inside hc)
    rw [Occurrence.walk_eq, List.forM_cons, ← hbelow, record, hannounce]
    simp [emitter, defineAll, hn]
  | mem =>
    have hname : constantName explosion o = Identifier.macroName [o.element.ident] := by
      simp only [constantName, Occurrence.owner?, hblock]
      rfl
    rw [Occurrence.walk_of_childless (hruns.isValid.children_of_memory hn), List.forM_cons,
      List.forM_nil, bind_pure_unit, record, hannounce]
    simp [emitter, defineAll, hn, hname]
  | regfile => simp [hn, Kind.canBeTop] at hkind
  | reg => simp [hn, Kind.canBeTop] at hkind

theorem visitTop_eq_forM (options : HeaderOptions) {top : Node}
    (hkind : top.kind.canBeTop = true) (hruns : Runs options (.top top)) :
    (emitter options).visitTop (.top top) (.decide top) =
      forM (Occurrence.all (walkOptions options) top) (record options (.decide top)) := by
  cases hexplosion : Explosion.decide top with
  | wrap =>
    have hblock : (Occurrence.top top).isBlock .wrap = true := rfl
    exact visitBlock_eq_forM options hblock hkind hruns
  | explode =>
    obtain ⟨htop, hblockable⟩ := Explosion.decide_eq_explode hexplosion
    have hfit : ∀ c ∈ (Element.top top).children (emitter options).options,
        c.address < Word.limit :=
      fun c hc => (hruns.inside hc).fits _ (Occurrence.mem_walk_self _ _)
    have hnothing : record options .explode (.top top) = pure () := by
      rw [record_of_not_block options rfl]
      simp only [defineAll, Occurrence.top, Element.top, htop]
    have hblocks : ∀ c ∈ (Element.top top).children (walkOptions options),
        (emitter options).visitBlock c =
          forM (((Occurrence.top top).inside c).walk (walkOptions options))
            (record options .explode) := by
      intro c hc
      have hblock : ((Occurrence.top top).inside c).isBlock .explode = true := rfl
      have hchild := hblockable _ (Element.node_mem_of_mem_children hc)
      exact visitBlock_eq_forM options hblock ((Explosion.isBlockable_iff _).1 hchild).1
        (hruns.inside hc)
    rw [Occurrence.all, Occurrence.walk_eq, List.forM_cons, hnothing, pure_bind,
      Occurrence.children, List.flatMap_map, forM_flatMap]
    exact (Emitter.needing_of_fit _ _ hfit).trans (forM_congr hblocks)

/-! The header as a whole. -/

theorem records_opening (options : HeaderOptions) (top : Node) (destination : Path) :
    Records ((emitter options).opening top destination) [] :=
  ⟨Draft.holds_empty, rfl⟩

/-- The walk asks for all constants of the map. -/
theorem adds_visitTop (options : HeaderOptions) {top : Node} (hkind : top.kind.canBeTop = true)
    (hvalid : top.IsValid)
    (hfits : ∀ e ∈ Element.allBelow (walkOptions options) top, e.address < Word.limit)
    (hspaced : ∀ e ∈ Element.allBelow (walkOptions options) top,
      e.node.kind = .reg → e.node.IsSpaced) :
    Adds ((emitter options).visitTop (.top top) (.decide top)) (allConstants? options top) := by
  rw [← Occurrence.map_element_all] at hfits hspaced
  have hruns : Runs options (.top top) := ⟨hvalid, fun q hq => hfits _ (List.mem_map_of_mem hq)⟩
  rw [visitTop_eq_forM options hkind hruns]
  apply adds_forM
  intro o ho
  exact adds_record options (.decide top) (hspaced _ (List.mem_map_of_mem ho))

theorem yields_finish (options : HeaderOptions) (context : Context) (s : Session Draft) :
    Yields ((emitter options).finish context) s
      (.text (render options.dialect context.destination s.state.lines.reverse)) s :=
  yields_bind.2 ⟨s.state, s, by simp, yields_pure.2 ⟨rfl, rfl⟩⟩

/-- A header has the first constant of every name that its map asks for, in the order
of the walk and nothing else, and its report counts the constants that it left out for
a first one with another value. Its directives are those of the guard around one for each
of these constants, next to what the comment of a block hides behind a line break: where
no path hides a directive, there are no others. There is no header where a size or a mask
is no word. -/
theorem export_keeps_firsts {m : Type → Type} [Monad m] [LawfulMonad m] (fs : FileSystem m)
    (options : HeaderOptions) (destination : Path) {top : Node}
    (hkind : top.kind.canBeTop = true) (hvalid : top.validate = .ok ())
    (hfits : ∀ e ∈ Element.allBelow (walkOptions options) top, e.address < Word.limit)
    (hspaced : ∀ e ∈ Element.allBelow (walkOptions options) top,
      e.node.kind = .reg → e.node.IsSpaced) :
    match allConstants? options top with
    | none => ∃ s, (emitter options).produce top destination = (.error .overflow, s)
    | some table => ∃ lines s,
      let text := render options.dialect destination lines
      let mark := options.dialect.mark
      (emitter options).produce top destination = (.ok (.text text), s) ∧
        lines.filterMap Line.block? = (blocks options top).map (·.path) ∧
        lines.filterMap Line.constant? = firsts table ∧
        directives options.dialect text =
          [mark ++ "ifndef " ++ guardName destination,
            mark ++ "define " ++ guardName destination] ++
            lines.flatMap (Line.directives options.dialect) ++ [mark ++ "endif"] ∧
        ((∀ e ∈ blocks options top, ¬ HidesDirective options.dialect e.path) →
          directives options.dialect text =
            guarded options.dialect destination (firsts table)) ∧
        (fun result => result.1.map Report.warnings) <$>
            (emitter options).run fs top destination =
          (fun written => (written.map fun _ => conflicts table).mapError Stop.failed) <$>
            fs.writeArtifact destination (.text text) ∧
        (conflicts table = 0 → ∀ c, c ∈ lines.filterMap Line.constant? ↔ c ∈ table) := by
  have hwalk := adds_visitTop options hkind (Node.isValid_of_validate hvalid) hfits hspaced _ []
    (records_opening options top destination)
  have hstart : (emitter options).steps top destination =
      (emitter options).visitTop (.top top) (.decide top) >>= fun _ =>
        (emitter options).finish ((emitter options).context top destination) := pure_bind _ _
  cases htable : allConstants? options top with
  | none =>
    simp only [htable] at hwalk
    have hstops : Stops ((emitter options).steps top destination)
        ((emitter options).opening top destination) .overflow := by
      rw [hstart, stops_bind]
      exact Or.inl hwalk
    exact ⟨_, (Emitter.produce_eq _ hkind hvalid destination).trans (Prod.ext hstops rfl)⟩
  | some table =>
    simp only [htable, List.nil_append] at hwalk
    obtain ⟨s, hyields, hrecords⟩ := hwalk
    have hconstants : s.state.lines.reverse.filterMap Line.constant? = firsts table :=
      hrecords.holds.constants_eq
    have hsteps : Yields ((emitter options).steps top destination)
        ((emitter options).opening top destination)
        (.text (render options.dialect destination s.state.lines.reverse)) s := by
      rw [hstart, yields_bind]
      exact ⟨(), s, hyields, yields_finish options _ s⟩
    have hproduce := (emitter options).produce_eq_ok_iff.2 ⟨⟨hkind, hvalid⟩, hsteps⟩
    obtain ⟨-, hannounces⟩ := announces_produce hproduce
    have hdirectives := directives_render options.dialect destination hannounces.isTable.plain
    refine ⟨s.state.lines.reverse, s, hproduce, hannounces.blocks_eq, hconstants, hdirectives,
      fun hhidden => ?_, ?_, ?_⟩
    · have hpaths : ∀ path ∈ s.state.blocks, ¬ HidesDirective options.dialect path := by
        rw [hannounces.blocks_eq, List.forall_mem_map]
        exact hhidden
      rw [hdirectives, (flatMap_directives_eq_iff options.dialect _).2 hpaths, hconstants, guarded]
    · rw [Emitter.warnings_run _ fs hproduce, hrecords.warnings_eq]
    · intro hnone c
      rw [hconstants]
      exact ⟨mem_of_mem_firsts, mem_firsts_of_conflicts_eq_zero hnone⟩

/-- Two registers whose names differ in case only. -/
def collidingMap : Node :=
  ((Node.addrmap "chip").addChild ((Node.reg "ctrl").addField { name := "en", lsb := 0, msb := 0 }))
    |>.addChild { Node.reg "CTRL" with offset := 4 }

/-- The second register of a name has no directive, which is told by a warning. -/
theorem export_keeps_firsts_of_collision :
    ∃ text s,
      (emitter {}).produce collidingMap ⟨"chip.h"⟩ = (.ok (.text text), s) ∧
        directives .c text =
          ["#ifndef __CHIP_H__", "#define __CHIP_H__", "#define CHIP_CTRL 0x0",
            "#define CTRL_EN_OFFSET 0", "#define CTRL_EN_MASK 0x1", "#endif"] ∧
        (fun result => result.1.map Report.warnings) <$>
            (emitter {}).run Disk.fileSystem collidingMap ⟨"chip.h"⟩ =
          (fun written => (written.map fun _ => 1).mapError Stop.failed) <$>
            Disk.fileSystem.writeArtifact ⟨"chip.h"⟩ (.text text) := by
  have htable : allConstants? {} collidingMap =
      some [("CHIP_CTRL", "0x0"), ("CTRL_EN_OFFSET", "0"), ("CTRL_EN_MASK", "0x1"),
        ("CHIP_CTRL", "0x4")] := by decide
  have hvalid : collidingMap.validate = .ok () := by decide +kernel
  have hheader := export_keeps_firsts Disk.fileSystem {} ⟨"chip.h"⟩ (by decide) hvalid
    (by decide) (by decide)
  rw [htable] at hheader
  obtain ⟨lines, s, hproduce, -, -, -, hdirectives, hwarnings, -⟩ := hheader
  exact ⟨_, s, hproduce, (hdirectives (by decide)).trans (by decide), hwarnings⟩

end Header

end RegisterMap
