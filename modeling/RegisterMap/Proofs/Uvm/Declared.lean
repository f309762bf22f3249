import RegisterMap.Proofs.Uvm.Members
import RegisterMap.Proofs.Uvm.ReadClass

/-!
The classes that an export writes. Their names are legal and those of their members are
words, so the lines of each class are read as what they were printed for. A class opens
under its name, and the classes that its handles are declared with and its instances are
created of are those that it uses, which are declared before it.
-/

namespace RegisterMap.Uvm

/-! Names. -/

/-- A package whose names are words. -/
structure Package.IsNamed (p : Package) : Prop where
  registers : ∀ c ∈ p.registers, IsWord c.name ∧ ∀ f ∈ c.fields.toList, IsWord f.name
  memories : ∀ c ∈ p.memories, IsWord c.name
  blocks : ∀ c ∈ p.blocks ++ [p.model], IsWord c.name ∧ ∀ m ∈ c.members.toList, m.IsNamed

theorem isWord_of_isLegal {name : String} (h : Identifier.isLegal name = true) : IsWord name :=
  (Identifier.isFront_of_isLegal h).forall_isChar

theorem ne_nil_of_isLegal {name : String} (h : Identifier.isLegal name = true) :
    name.toList ≠ [] := by
  intro hnil
  simp [Identifier.isLegal, hnil] at h

/-- Legal names of classes, and names of handles that are made usable, are words. -/
theorem Package.isNamed_of_declared {p : Package}
    (hlegal : ∀ d ∈ p.declarations, Identifier.isLegal d.name = true)
    (horder : DeclaredInOrder ["uvm_reg_field"] p.declarations)
    (hhandles : ∀ handles ∈ p.handles, ∀ name ∈ handles, IsWord name) : p.IsNamed := by
  have husedLegal : ∀ d ∈ p.declarations, ∀ used ∈ d.uses, Identifier.isLegal used = true := by
    intro d hd used hused
    rcases horder.mem_of_used d hd used hused with hfield | hclass
    · rw [List.mem_singleton.1 hfield]
      decide
    · obtain ⟨c, hc, rfl⟩ := List.mem_map.1 hclass
      exact hlegal c hc
  have hblock (isTop : Bool) {c : BlockClass} (hdeclared : c.declare isTop ∈ p.declarations)
      (hhandled : c.handles ∈ p.handles) :
      IsWord c.name ∧ ∀ m ∈ c.members.toList, m.IsNamed := by
    refine ⟨isWord_of_isLegal (hlegal _ hdeclared), fun m hm => ?_⟩
    have hclass := husedLegal _ hdeclared m.className (List.mem_map_of_mem hm)
    exact ⟨hhandles _ hhandled _ (List.mem_map_of_mem hm), isWord_of_isLegal hclass,
      ne_nil_of_isLegal hclass⟩
  refine ⟨fun c hc => ⟨?_, fun f hf => ?_⟩, fun c hc => ?_, fun c hc => ?_⟩
  · exact isWord_of_isLegal (hlegal c.declare (by simp [declarations, List.mem_map_of_mem hc]))
  · exact hhandles c.handles (by simp [handles, List.mem_map_of_mem hc]) _
      (List.mem_map_of_mem hf)
  · exact isWord_of_isLegal (hlegal c.declare (by simp [declarations, List.mem_map_of_mem hc]))
  · rcases List.mem_append.1 hc with hc | hc
    · exact hblock false (by simp [declarations, List.mem_map_of_mem hc])
        (by simp [handles, List.mem_map_of_mem hc])
    · obtain rfl := List.mem_singleton.1 hc
      exact hblock true (by simp [declarations]) (by simp [handles])

/-! What the lines of a class say. -/

namespace Statement

def openedName? : Statement → Option String
  | .opens name => some name
  | .declares _ _ _ | .creates _ _ | .maps _ _ _ _ => none

def declaredClass? : Statement → Option String
  | .declares className _ _ => some className
  | .opens _ | .creates _ _ | .maps _ _ _ _ => none

def createdClass? : Statement → Option String
  | .creates className _ => some className
  | .opens _ | .declares _ _ _ | .maps _ _ _ _ => none

end Statement

/-- What the lines of a class say. -/
def Declaration.statements (d : Declaration) : List Statement :=
  d.lines.filterMap Statement.ofLine?

/-- The lines of a class open it and no other class, and the classes of its handles and of
the instances that it creates are those that it uses. -/
structure Declaration.IsRead (d : Declaration) : Prop where
  noBreak : ∀ line ∈ d.lines, '\n' ∉ line.toList
  head_eq : d.statements.head? = some (.opens d.name)
  opened_eq : d.statements.filterMap Statement.openedName? = [d.name]
  declared_eq : d.statements.filterMap Statement.declaredClass? = d.uses
  created_eq : d.statements.filterMap Statement.createdClass? = d.uses

theorem RegisterClass.isRead_declare {c : RegisterClass} (hname : IsWord c.name)
    (hfields : ∀ f ∈ c.fields.toList, IsWord f.name) : c.declare.IsRead := by
  have hreads := reads_registerClass hname hfields
  have hstatements : c.declare.statements = .opens c.name :: c.body := hreads.statements_eq
  refine ⟨hreads.noBreak, ?_, ?_, ?_, ?_⟩ <;> rw [hstatements]
  · rfl
  · simp [body, declare, Statement.openedName?]
  · simp [body, declare, Statement.declaredClass?, List.filterMap_cons, Function.comp_def]
  · simp [body, declare, Statement.createdClass?, List.filterMap_cons, Function.comp_def]

theorem MemoryClass.isRead_declare {c : MemoryClass} (hname : IsWord c.name) :
    c.declare.IsRead := by
  have hreads := reads_memoryClass hname
  have hstatements : c.declare.statements = [.opens c.name] := hreads.statements_eq
  refine ⟨hreads.noBreak, ?_, ?_, ?_, ?_⟩ <;> rw [hstatements] <;> rfl

theorem BlockClass.isRead_declare {c : BlockClass} (hname : IsWord c.name)
    (hmembers : ∀ m ∈ c.members.toList, m.IsNamed) (isTop : Bool) : (c.declare isTop).IsRead := by
  have hreads := reads_blockClass hname hmembers isTop
  have hstatements : (c.declare isTop).statements = .opens c.name :: c.body :=
    hreads.statements_eq
  refine ⟨hreads.noBreak, ?_, ?_, ?_, ?_⟩ <;> rw [hstatements]
  · rfl
  · simp [body, declare, Statement.openedName?, List.filterMap_cons,
      List.filterMap_flatMap, Function.comp_def]
  · simp [body, declare, Statement.declaredClass?, List.filterMap_cons,
      List.filterMap_flatMap, Function.comp_def]
  · simp [body, declare, Statement.createdClass?, List.filterMap_cons,
      List.filterMap_flatMap, Function.comp_def, ← List.map_eq_flatMap]

theorem Package.IsNamed.isRead {p : Package} (h : p.IsNamed) : ∀ d ∈ p.declarations, d.IsRead := by
  intro d hd
  simp only [declarations, List.mem_append, List.mem_map, List.mem_singleton] at hd
  rcases hd with ((⟨c, hc, rfl⟩ | ⟨c, hc, rfl⟩) | ⟨c, hc, rfl⟩) | rfl
  · exact RegisterClass.isRead_declare (h.registers c hc).1 (h.registers c hc).2
  · exact MemoryClass.isRead_declare (h.memories c hc)
  · obtain ⟨hname, hmembers⟩ := h.blocks c (List.mem_append_left _ hc)
    exact BlockClass.isRead_declare hname hmembers false
  · obtain ⟨hname, hmembers⟩ := h.blocks p.model (by simp)
    exact BlockClass.isRead_declare hname hmembers true

/-! The package as a whole. -/

/-- The classes of the package that an export has built are named and in order. -/
theorem declared_of_produce {options : UvmOptions} {top : Node} {destination : Path}
    {a : Artifact} {s : Session State} (h : (emitter options).produce top destination = (.ok a, s))
    {package : Package} (hwritten : s.state.written? options top = some package) :
    a = .text package.render ∧ package.model.name = modelName top ∧
      Named s.state.names (package.declarations.map Declaration.name) ∧
      DeclaredInOrder ["uvm_reg_field"] package.declarations ∧ package.IsNamed := by
  obtain ⟨hidle, left, hleft, htext⟩ := idle_of_produce h
  obtain rfl := Option.some.inj (hleft.symm.trans hwritten)
  obtain ⟨model, hhead, hpackage⟩ := Option.map_eq_some_iff.1 hwritten
  obtain ⟨above, hstack⟩ := List.head?_eq_some_iff.1 hhead
  subst hpackage
  obtain ⟨hmodel, hnamed, horder⟩ := hidle.package hstack (packageName options top.name)
  refine ⟨htext, hmodel, hnamed, horder, Package.isNamed_of_declared ?_ horder ?_⟩
  · exact fun d hd => hnamed.legal d.name (List.mem_map_of_mem hd)
  · obtain ⟨other, hother, _, hhandles⟩ := mem_handles_of_produce options h
    obtain rfl := Option.some.inj (hother.symm.trans hwritten)
    intro handles hmem name hname
    obtain ⟨group, _, rfl⟩ := (hhandles handles).1 hmem
    obtain ⟨given, _, rfl⟩ := List.mem_map.1 hname
    exact (Identifier.isFront_systemVerilog given).forall_isChar

/-- The package that an export writes declares each of its classes once, under a legal name
of its own, and every class behind those that it uses; the model of the top comes last. The
lines of a class open it under its name, and the classes of its handles and of what it creates
are those that it uses. A name for a class is found by counting up to the first that is free. -/
theorem export_declares_in_order (options : UvmOptions) {top : Node} {destination : Path}
    {a : Artifact} {s : Session State}
    (h : (emitter options).produce top destination = (.ok a, s)) :
    ∃ package : Package, a = .text package.render ∧
      package.render = String.join (package.lines.map (· ++ "\n")) ∧
      package.lines = package.opening ++ package.declarations.flatMap Declaration.lines ++
        ["endpackage"] ∧
      package.model.name = Identifier.systemVerilog top.name ++ "_reg_model" ∧
      (package.declarations.map Declaration.name).Nodup ∧
      (∀ d ∈ package.declarations, Identifier.isLegal d.name = true) ∧
      (∀ name, name ∈ s.state.names ↔ name ∈ package.declarations.map Declaration.name) ∧
      DeclaredInOrder ["uvm_reg_field"] package.declarations ∧
      (∀ d ∈ package.declarations, d.IsRead) ∧
      ∀ (names : Std.TreeSet String) (base suffix : String),
        ∃ n, 1 ≤ n ∧ n ≤ names.size + 1 ∧
          freeName names base suffix = numberedName base suffix n ∧
          numberedName base suffix n ∉ names ∧
          ∀ m, 1 ≤ m → m < n → numberedName base suffix m ∈ names := by
  obtain ⟨_, package, hwritten, _⟩ := idle_of_produce h
  obtain ⟨htext, hmodel, hnamed, horder, hwords⟩ := declared_of_produce h hwritten
  refine ⟨package, htext, rfl, Package.lines_eq package, hmodel, hnamed.nodup, ?_, hnamed.mem_iff,
    horder, hwords.isRead, ?_⟩
  · exact fun d hd => hnamed.legal d.name (List.mem_map_of_mem hd)
  · intro names base suffix
    obtain ⟨n, hpos, hle, hname, hused⟩ := freeName_eq_first names base suffix
    exact ⟨n, hpos, hle, hname, hname ▸ not_mem_freeName names base suffix, hused⟩

/-- Two registers whose paths come to the same name, and names that cannot be kept. -/
def clashingMap : Node :=
  (((Node.addrmap "chip").addChild (Node.reg "a_b")).addChild
    ({ Node.regfile "a" with offset := 8 }.addChild (Node.reg "b"))).addChild
      { Node.mem "\u00e9 1" 4 32 with offset := 64 }

/-- The second of two equal names is numbered. -/
theorem export_declares_in_order_of_clashes :
    ∃ package : Package, ∃ s,
      (emitter {}).produce clashingMap ⟨"chip.sv"⟩ = (.ok (.text package.render), s) ∧
        (package.declarations.map Declaration.name).Perm
          ["chip_a_b_reg", "chip_a_b_2_reg", "chip___1_mem", "chip_a_block", "chip_block",
            "chip_reg_model"] ∧
        DeclaredInOrder ["uvm_reg_field"] package.declarations := by
  have hok : ((emitter {}).produce clashingMap ⟨"chip.sv"⟩).1.isOk = true := by decide +kernel
  have hnames : ((emitter {}).produce clashingMap ⟨"chip.sv"⟩).2.state.names.toList =
      ["chip___1_mem", "chip_a_b_2_reg", "chip_a_b_reg", "chip_a_block", "chip_block",
        "chip_reg_model"] := by decide +kernel
  rcases hproduce : (emitter {}).produce clashingMap ⟨"chip.sv"⟩ with ⟨reason | a, s⟩
  · rw [hproduce] at hok
    cases hok
  · rw [hproduce] at hnames
    obtain ⟨package, rfl, _, _, _, hnodup, _, hused, horder, _⟩ :=
      export_declares_in_order {} hproduce
    refine ⟨package, s, rfl, ?_, horder⟩
    refine (List.perm_ext_iff_of_nodup hnodup (by decide)).2 fun name => ?_
    rw [← hused name, ← Std.TreeSet.mem_toList, hnames]
    simp only [List.mem_cons, List.not_mem_nil]
    tauto

end RegisterMap.Uvm
