import RegisterMap.Proofs.Uvm.Members

/-!
Which classes of a package have members that clash. Legal names that differ are only
brought together by a keyword that steps aside: the members of a class have names of
their own unless a keyword and the same name with an underscore behind it are met
together.
-/

namespace RegisterMap

/-- Legal names that all differ. -/
structure Identifier.AreApart (names : List String) : Prop where
  nodup : names.Nodup
  isLegal : ∀ name ∈ names, isLegal name = true

instance (names : List String) : Decidable (Identifier.AreApart names) :=
  decidable_of_iff (names.Nodup ∧ ∀ name ∈ names, Identifier.isLegal name = true)
    ⟨fun h => ⟨h.1, h.2⟩, fun h => ⟨h.nodup, h.isLegal⟩⟩

/-- Siblings, and the fields of a register, have legal names that all differ. -/
def Node.IsNamedApart (top : Node) : Prop :=
  ∀ m ∈ top.subtree, Identifier.AreApart (m.children.map (·.name)) ∧
    Identifier.AreApart (m.fields.map (·.name))

instance (top : Node) : Decidable top.IsNamedApart :=
  inferInstanceAs (Decidable (∀ m ∈ top.subtree, _ ∧ _))

theorem Identifier.AreApart.sublist {names others : List String} (h : Identifier.AreApart others)
    (hsub : names.Sublist others) : Identifier.AreApart names :=
  ⟨h.nodup.sublist hsub, fun name hname => h.isLegal name (hsub.subset hname)⟩

/-- What is met right below a node is named apart, whatever is passed over. -/
theorem Node.IsNamedApart.memberNames {top m : Node} (h : top.IsNamedApart)
    (hm : m ∈ top.subtree) (options : WalkOptions) :
    Identifier.AreApart (m.memberNames options) := by
  obtain ⟨hchildren, hfields⟩ := h m hm
  unfold Node.memberNames
  split
  · exact hfields.sublist (List.filter_sublist.map _)
  · exact hchildren.sublist (List.filter_sublist.map _)
  · exact hchildren.sublist (List.filter_sublist.map _)
  · exact hchildren.sublist (List.filter_sublist.map _)

/-- Names that are declared together stay apart but for keywords. -/
theorem Node.IsNamedApart.nodup_iff {top : Node} (h : top.IsNamedApart) {options : WalkOptions}
    {group : List String} (hgroup : group ∈ top.memberGroups options) :
    (group.map Identifier.systemVerilog).Nodup ↔ ¬ Identifier.HasKeywordPair group := by
  rcases List.mem_append.1 hgroup with hgroup | hgroup
  · obtain rfl : group = [top.name] := by
      cases hexplosion : Explosion.decide top with
      | wrap => simpa [hexplosion] using hgroup
      | explode => simp [hexplosion] at hgroup
    have hnone : ¬ Identifier.HasKeywordPair [top.name] := by
      rintro ⟨k, _, hk, hk'⟩
      rw [List.mem_singleton] at hk hk'
      have hlength := congrArg String.length (hk'.trans hk.symm)
      simp at hlength
    simp [hnone]
  · obtain ⟨m, hm, rfl⟩ := List.mem_map.1 hgroup
    have hapart := h.memberNames (Node.mem_subtree_of_mem_visited hm) options
    exact Identifier.nodup_map_systemVerilog_iff hapart.nodup hapart.isLegal

namespace Uvm

/-- No member is called as the constructor of its class is, and one is called as its build
function only if it is named so in the map. -/
theorem nodup_functions_iff {group : List String} :
    (group.map Identifier.systemVerilog ++ ["new", "build"]).Nodup ↔
      (group.map Identifier.systemVerilog).Nodup ∧ "build" ∉ group := by
  have hnew : "new" ∉ group.map Identifier.systemVerilog := by
    intro hmem
    obtain ⟨name, _, hname⟩ := List.mem_map.1 hmem
    exact Identifier.systemVerilog_not_mem_keywords name (hname ▸ by decide)
  have hplain (name : String) : Identifier.systemVerilog name = "build" ↔ name = "build" :=
    Identifier.systemVerilog_eq_iff (by decide) (by decide) (by decide)
  have hbuild : "build" ∈ group.map Identifier.systemVerilog ↔ "build" ∈ group := by
    simp [List.mem_map, hplain]
  rw [List.nodup_append]
  constructor
  · rintro ⟨hnodup, _, hdiffer⟩
    exact ⟨hnodup, fun hmem => hdiffer "build" (hbuild.2 hmem) "build" (by simp) rfl⟩
  · rintro ⟨hnodup, hfree⟩
    refine ⟨hnodup, by decide, ?_⟩
    rintro name hmem function hfunction rfl
    rcases List.mem_cons.1 hfunction with rfl | hfunction
    · exact hnew hmem
    · obtain rfl := List.mem_singleton.1 hfunction
      exact hfree (hbuild.1 hmem)

/-- In a map whose siblings have legal names that differ, the classes of a package have
the members that are met together, under names that SystemVerilog takes. These differ
in every class just where no keyword is met together with the same name behind which an
underscore stands; they differ from the functions of the classes, too, just where
nothing below the model is called as the function that builds a class. -/
theorem export_members_differ_iff (options : UvmOptions) {top : Node} {destination : Path}
    {a : Artifact} {s : Session State} (hnames : top.IsNamedApart)
    (h : (emitter options).produce top destination = (.ok a, s)) :
    ∃ package : Package, a = .text package.render ∧
      (∀ handles, handles ∈ package.handles ↔
        ∃ group ∈ top.memberGroups (walkOptions options),
          handles = group.map Identifier.systemVerilog) ∧
      ((∀ handles ∈ package.handles, handles.Nodup) ↔
        ∀ group ∈ top.memberGroups (walkOptions options), ¬ Identifier.HasKeywordPair group) ∧
      ((∀ handles ∈ package.handles, (handles ++ ["new", "build"]).Nodup) ↔
        ∀ group ∈ top.memberGroups (walkOptions options),
          ¬ Identifier.HasKeywordPair group ∧ "build" ∉ group) := by
  obtain ⟨package, _, hpackage, hhandles⟩ := mem_handles_of_produce options h
  refine ⟨package, hpackage, hhandles, ?_, ?_⟩
  · simp only [hhandles, forall_exists_index, and_imp]
    constructor
    · exact fun hall group hgroup => (hnames.nodup_iff hgroup).1 (hall _ group hgroup rfl)
    · rintro hall _ group hgroup rfl
      exact (hnames.nodup_iff hgroup).2 (hall group hgroup)
  · simp only [hhandles, forall_exists_index, and_imp]
    constructor
    · intro hall group hgroup
      rw [← hnames.nodup_iff hgroup, ← nodup_functions_iff]
      exact hall _ group hgroup rfl
    · rintro hall _ group hgroup rfl
      rw [nodup_functions_iff, hnames.nodup_iff hgroup]
      exact hall group hgroup

/-- A register called as a keyword, and another one. -/
def keywordMap (other : String) : Node :=
  ((Node.addrmap "chip").addChild (Node.reg "class")).addChild { Node.reg other with offset := 4 }

/-- Two keywords step aside to different names. -/
theorem export_members_differ_iff_of_keywords :
    ∃ package : Package, ∃ s,
      (emitter {}).produce (keywordMap "end") ⟨"chip.sv"⟩ = (.ok (.text package.render), s) ∧
        ["class_", "end_"] ∈ package.handles ∧
        ∀ handles ∈ package.handles, (handles ++ ["new", "build"]).Nodup := by
  have hok : ((emitter {}).produce (keywordMap "end") ⟨"chip.sv"⟩).1.isOk = true := by
    decide +kernel
  obtain ⟨a, s, hproduce, _⟩ := (emitter {}).exists_produce_eq_ok hok
  obtain ⟨package, rfl, hhandles, _, hdiffer⟩ :=
    export_members_differ_iff {} (by decide) hproduce
  exact ⟨package, s, hproduce, (hhandles _).2 ⟨["class", "end"], by decide, by decide⟩,
    hdiffer.2 (by decide)⟩

/-- A keyword steps aside to the name of its sibling, and a class has two members of that
name. -/
theorem keywordMap_members_clash :
    (keywordMap "class_").validate = .ok () ∧ (keywordMap "class_").IsNamedApart ∧
      ∃ package : Package, ∃ s,
        (emitter {}).produce (keywordMap "class_") ⟨"chip.sv"⟩ = (.ok (.text package.render), s) ∧
          ["class_", "class_"] ∈ package.handles ∧
          ¬ ∀ handles ∈ package.handles, handles.Nodup := by
  have hok : ((emitter {}).produce (keywordMap "class_") ⟨"chip.sv"⟩).1.isOk = true := by
    decide +kernel
  refine ⟨by decide +kernel, by decide, ?_⟩
  obtain ⟨a, s, hproduce, _⟩ := (emitter {}).exists_produce_eq_ok hok
  obtain ⟨package, _, rfl, hhandles⟩ := mem_handles_of_produce {} hproduce
  have hclash : ["class_", "class_"] ∈ package.handles :=
    (hhandles _).2 ⟨["class", "class_"], by decide, by decide⟩
  refine ⟨package, s, hproduce, hclash, fun hdiffer => ?_⟩
  have hnodup := hdiffer _ hclash
  revert hnodup
  decide

end Uvm

end RegisterMap
