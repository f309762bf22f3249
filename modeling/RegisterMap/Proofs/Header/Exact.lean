import RegisterMap.Proofs.Header.Directives

/-!
Which headers are exact. Every step of the emitter keeps the table of the draft, and
only the start of an address block adds a comment. The comments of a header are then
the paths of its blocks, whatever is met inside them.
-/

namespace RegisterMap.Header

open ExportM

/-! The table of a draft. -/

theorem Draft.isTable_empty : Draft.empty.IsTable :=
  ⟨⟨[], Draft.holds_empty⟩, by simp [Draft.empty, Draft.constants]⟩

theorem Draft.IsTable.addBlock {d : Draft} (h : d.IsTable) (path : String) :
    (d.addBlock path).IsTable := by
  obtain ⟨constants, hholds⟩ := h.holds
  refine ⟨⟨constants, hholds.addBlock path⟩, ?_⟩
  rw [constants_addBlock]
  exact h.plain

theorem Draft.IsTable.addConstant {d : Draft} (h : d.IsTable) {name value : String}
    (hnew : d.valueOf? name = none) (hplain : IsPlain (name, value)) :
    (d.addConstant name value).IsTable := by
  obtain ⟨constants, hholds⟩ := h.holds
  refine ⟨⟨_, hholds.addConstant (hholds.valueOf?_eq name ▸ hnew) value⟩, ?_⟩
  rw [constants_addConstant]
  intro c hc
  rcases List.mem_append.1 hc with hc | hc
  · exact h.plain c hc
  · obtain rfl := List.mem_singleton.1 hc
    exact hplain

@[simp]
theorem Draft.blocks_addBlock (d : Draft) (path : String) :
    (d.addBlock path).blocks = d.blocks ++ [path] := by
  simp [blocks, addBlock, Line.block?]

@[simp]
theorem Draft.blocks_addConstant (d : Draft) (name value : String) :
    (d.addConstant name value).blocks = d.blocks := by
  simp [blocks, addConstant, Line.block?]

/-! Values. -/

theorem not_mem_hex {c : Char} (h : ∀ d < 16, c ≠ Nat.digitChar d) (hx : c ≠ 'x') (n : Nat) :
    c ∉ (Text.hex n).toList := by
  have hdigits := Text.not_mem_hexDigits h n
  have hzero := h 0 (by decide)
  have hchars : (Text.hex n).toList = '0' :: 'x' :: Text.hexDigits n := by simp [Text.hex]
  rw [hchars, List.mem_cons, List.mem_cons]
  exact not_or.2 ⟨hzero, not_or.2 ⟨hx, hdigits⟩⟩

theorem isPlain_hex {name : String} (h : Identifier.isMacro name = true) (n : Nat) :
    IsPlain (name, Text.hex n) :=
  ⟨h, not_mem_hex (by decide) (by decide) n⟩

theorem isPlain_toString {name : String} (h : Identifier.isMacro name = true) (n : Nat) :
    IsPlain (name, toString n) :=
  ⟨h, Text.not_mem_toString rfl n⟩

/-! The steps of the emitter. -/

/-- A draft with some comments and a table. -/
structure Announces (paths : List String) (d : Draft) : Prop where
  blocks_eq : d.blocks = paths
  isTable : d.IsTable

theorem settles_definePlain (path : String) {name value : String} (h : IsPlain (name, value)) :
    Settles Announces (define path name value) True anyReason := by
  apply Settles.built_bind
  intro paths d hd
  cases hknown : d.valueOf? name with
  | none =>
    refine .build fun a ha => ?_
    subst ha
    exact ⟨⟨(a.blocks_addConstant name value).trans hd.blocks_eq,
      hd.isTable.addConstant hknown h⟩, trivial⟩
  | some first =>
    simp only
    split
    · exact (Ensures.warn _).weaken (fun _ ha => ha) fun _ _ ha => ⟨ha ▸ hd, trivial⟩
    · exact .pure fun _ ha => ⟨ha ▸ hd, trivial⟩

/-- A memory takes its names from an element with a part in front, or from itself. -/
theorem settles_definePlainMemory (e : Element) (parts : List String) :
    Settles Announces (defineMemory e (Identifier.macroName parts)) True anyReason := by
  have hname {suffix : String} (h : suffix = "_BASE" ∨ suffix = "_SIZE") :
      Identifier.isMacro (Identifier.macroName parts ++ suffix) = true := by
    rcases h with rfl | rfl
    · exact Identifier.isMacro_macroName_append parts (by decide) (Or.inr (by simp))
    · exact Identifier.isMacro_macroName_append parts (by decide) (Or.inr (by simp))
  exact (Settles.checked trivial).next fun _ _ =>
    (settles_definePlain _ (isPlain_hex (hname (Or.inl rfl)) _)).next fun _ _ =>
      settles_definePlain _ (isPlain_hex (hname (Or.inr rfl)) _)

theorem settles_definePlainField (f : Field) (register : Element) :
    Settles Announces (defineField f register) True anyReason :=
  (Settles.checked trivial).next fun _ _ =>
    (settles_definePlain _ (isPlain_toString (Identifier.isMacro_macroName _ _ _) _)).next
      fun _ _ => settles_definePlain _ (isPlain_hex (Identifier.isMacro_macroName _ _ _) _)

variable (options : HeaderOptions)

theorem settles_below {e : Element}
    (hmeet : ∀ c ∈ e.children (emitter options).options,
      Settles Announces ((emitter options).meet e c) True anyReason) :
    Settles Announces ((emitter options).below e) True anyReason := by
  rw [Emitter.below_eq]
  have hall := (Settles.forM hmeet).imp fun _ => trivial
  exact fun paths => (emitter options).ensures_needing trivial (hall paths)

/-- Below a block nothing is announced. -/
theorem settles_meet (e : Element) :
    ∀ parent, Settles Announces ((emitter options).meet parent e) True anyReason := by
  induction e using Element.induction (walkOptions options) with
  | step e ih =>
    intro parent
    have hbelow := settles_below options fun c hc => ih c hc e
    cases hkind : e.node.kind with
    | addrmap =>
      rw [Emitter.meet_of_container _ (Or.inl hkind)]
      exact hbelow
    | regfile =>
      rw [Emitter.meet_of_container _ (Or.inr hkind)]
      exact hbelow
    | reg =>
      rw [Emitter.meet_of_register _ hkind]
      have haddress := isPlain_hex (Identifier.isMacro_macroName parent.ident e.ident []) e.address
      exact (settles_checkRegisterArray fun _ _ _ => trivial).next fun _ _ =>
        (settles_definePlain _ haddress).next fun _ _ =>
          (Settles.forM fun f _ => settles_definePlainField f e).imp fun _ => trivial
    | mem =>
      rw [Emitter.meet_of_memory _ hkind]
      exact settles_definePlainMemory e _

theorem ensures_visitBlock (e : Element) (paths : List String) :
    Ensures (Announces paths) ((emitter options).visitBlock e)
      (fun _ => Announces (paths ++ [e.path])) anyReason := by
  have hbelow := settles_below options fun c _ => settles_meet options c e
  have hinside : Settles Announces
      (if e.node.kind = .mem then defineMemory e (Identifier.macroName [e.ident])
        else (emitter options).below e) True anyReason := by
    split
    · exact settles_definePlainMemory e _
    · exact hbelow
  have hannounce : Ensures (Announces paths) (.build (·.addBlock e.path))
      (fun _ => Announces (paths ++ [e.path])) anyReason :=
    .build fun d hd => ⟨(d.blocks_addBlock e.path).trans (congrArg (· ++ [e.path]) hd.blocks_eq),
      hd.isTable.addBlock e.path⟩
  rw [Emitter.visitBlock_eq]
  exact hannounce.bind fun _ => (hinside _).weaken (fun _ hd => hd) fun _ _ hd => hd.1

theorem ensures_visitBlocks (blocks : List Element) :
    ∀ paths, Ensures (Announces paths) (forM blocks (emitter options).visitBlock)
      (fun _ => Announces (paths ++ blocks.map (·.path))) anyReason := by
  induction blocks with
  | nil => exact fun paths => .pure fun d hd => by simpa using hd
  | cons e rest ih =>
    intro paths
    rw [List.forM_cons]
    refine (ensures_visitBlock options e paths).bind fun _ => ?_
    simpa using ih (paths ++ [e.path])

/-- The address blocks of a map. -/
def blocks (top : Node) : List Element :=
  match Explosion.decide top with
  | .wrap => [.top top]
  | .explode => (Element.top top).children (walkOptions options)

/-- The header of a map has a table, and a comment for each of its blocks. -/
theorem announces_produce {options : HeaderOptions} {top : Node} {destination : Path}
    {a : Artifact} {s : Session Draft}
    (h : (emitter options).produce top destination = (.ok a, s)) :
    a = .text (render options.dialect destination s.state.lines.reverse) ∧
      Announces ((blocks options top).map (·.path)) s.state := by
  have hwalk : Ensures (Announces []) ((emitter options).visitTop (.top top) (.decide top))
      (fun _ => Announces ((blocks options top).map (·.path))) anyReason := by
    unfold blocks
    cases Explosion.decide top with
    | wrap => exact ensures_visitBlock options (.top top) []
    | explode =>
      have hblocks := ensures_visitBlocks options
        ((Element.top top).children (walkOptions options)) []
      exact (emitter options).ensures_needing trivial hblocks
  have hsteps : Ensures (· = (emitter options).initial)
      ((emitter options).steps top destination)
      (fun b d => b = .text (render options.dialect destination d.lines.reverse) ∧
        Announces ((blocks options top).map (·.path)) d) anyReason := by
    have hstart : Ensures (· = (emitter options).initial)
        ((emitter options).start ((emitter options).context top destination))
        (fun _ => Announces []) anyReason :=
      .pure fun d hd => hd ▸ ⟨rfl, Draft.isTable_empty⟩
    refine hstart.bind fun _ => hwalk.bind fun _ => .built_bind fun d hd => ?_
    exact .pure fun b hb => by subst hb; exact ⟨rfl, hd⟩
  exact hsteps.yields _ a s rfl ((emitter options).produce_eq_ok_iff.1 h).2

/-- The directives of a header are those of its guard and one for each constant of its
table, under legal names that are defined once, just where no path of a block hides a
directive behind a line break and no constant is called as the guard is. -/
theorem export_exact_iff {options : HeaderOptions} {top : Node} {destination : Path}
    {a : Artifact} {s : Session Draft}
    (h : (emitter options).produce top destination = (.ok a, s)) :
    ∃ text, a = .text text ∧
      (∀ c, c ∈ s.state.constants ↔ s.state.valueOf? c.1 = some c.2) ∧
      (∀ name ∈ guardName destination :: s.state.constants.map Prod.fst,
        Identifier.isMacro name = true) ∧
      (IsExact options.dialect destination s.state.constants text ↔
        (∀ e ∈ blocks options top, ¬ HidesDirective options.dialect e.path) ∧
          guardName destination ∉ s.state.constants.map Prod.fst) := by
  obtain ⟨htext, hblocks, htable⟩ := announces_produce h
  refine ⟨_, htext, htable.mem_constants_iff, ?_, ?_⟩
  · rw [List.forall_mem_cons]
    refine ⟨isMacro_guardName destination, fun name hname => ?_⟩
    obtain ⟨c, hc, rfl⟩ := List.mem_map.1 hname
    exact (htable.plain c hc).isMacro
  · rw [isExact_render_iff options.dialect destination htable, hblocks, List.forall_mem_map]

/-- A register whose constant may be called as the guard of its header is. -/
def guardedMap : Node := (Node.addrmap "_").addChild (Node.reg "x_h__")

/-- Under another file name its header is exact. -/
theorem export_exact_iff_of_guardedMap :
    ∃ text s, (emitter {}).produce guardedMap ⟨"y.h"⟩ = (.ok (.text text), s) ∧
      s.state.constants = [("__X_H__", "0x0")] ∧
      IsExact .c ⟨"y.h"⟩ s.state.constants text := by
  have hvalid : guardedMap.validate = .ok () := by decide +kernel
  obtain ⟨a, s, hproduce, hconstants⟩ :
      ∃ a s, (emitter {}).produce guardedMap ⟨"y.h"⟩ = (.ok a, s) ∧
        s.state.constants = [("__X_H__", "0x0")] :=
    ⟨_, _, (Emitter.produce_eq _ rfl hvalid _).trans rfl, rfl⟩
  obtain ⟨text, rfl, _, _, hexact⟩ := export_exact_iff hproduce
  refine ⟨text, s, hproduce, hconstants, hexact.2 ⟨by decide, ?_⟩⟩
  rw [hconstants]
  decide

/-- A map whose name goes on with a directive on a line of its own. -/
def brokenMap : Node := Node.addrmap "t\n#define X 1"

/-- The constant of a register takes the name of the guard once more, and a comment adds a
constant that is in no table. -/
theorem guardedMap_and_brokenMap_not_exact :
    (guardedMap.validate = .ok () ∧
      let text := "#ifndef __X_H__\n#define __X_H__\n\n// _\n#define __X_H__ 0x0\n\n#endif\n"
      ∃ s, (emitter {}).produce guardedMap ⟨"x.h"⟩ = (.ok (.text text), s) ∧
        ¬ IsExact .c ⟨"x.h"⟩ s.state.constants text) ∧
    (brokenMap.validate = .ok () ∧
      let text := "#ifndef __X_H__\n#define __X_H__\n\n// t\n#define X 1\n\n#endif\n"
      ∃ s, (emitter {}).produce brokenMap ⟨"x.h"⟩ = (.ok (.text text), s) ∧
        ¬ IsExact .c ⟨"x.h"⟩ s.state.constants text) := by
  have hguarded : guardedMap.validate = .ok () := by decide +kernel
  have hbroken : brokenMap.validate = .ok () := by decide +kernel
  obtain ⟨s, hproduce⟩ :
      ∃ s, (emitter {}).produce guardedMap ⟨"x.h"⟩ = (.ok (.text
          "#ifndef __X_H__\n#define __X_H__\n\n// _\n#define __X_H__ 0x0\n\n#endif\n"), s) :=
    ⟨_, (Emitter.produce_eq _ rfl hguarded _).trans rfl⟩
  obtain ⟨t, hproduce', hconstants'⟩ :
      ∃ s, (emitter {}).produce brokenMap ⟨"x.h"⟩ = (.ok (.text
          "#ifndef __X_H__\n#define __X_H__\n\n// t\n#define X 1\n\n#endif\n"), s) ∧
        s.state.constants = [] :=
    ⟨_, (Emitter.produce_eq _ rfl hbroken _).trans rfl, rfl⟩
  refine ⟨⟨hguarded, s, hproduce, fun hexact => ?_⟩, ⟨hbroken, t, hproduce', fun hexact => ?_⟩⟩
  · have hnodup := hexact.nodup
    revert hnodup
    decide +kernel
  · have hdirectives := hexact.directives_eq
    rw [hconstants'] at hdirectives
    revert hdirectives
    decide +kernel

end RegisterMap.Header
