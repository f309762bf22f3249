import RegisterMap.Proofs.Uvm.Elaborate
import RegisterMap.Proofs.Uvm.FileOrder
import RegisterMap.Proofs.Uvm.Read

/-!
The classes of a package, read back. What the lines of a class say follows from its
members one after another: it is opened, its handles are declared, and in its build
function each member is created and then mapped, element by element.
-/

namespace RegisterMap.Uvm

open Text

/-- Lines without a break in them that say some statements. -/
structure Reads (lines : List String) (statements : List Statement) : Prop where
  noBreak : ∀ line ∈ lines, '\n' ∉ line.toList
  statements_eq : lines.filterMap Statement.ofLine? = statements

namespace Reads

variable {lines more : List String} {statements others : List Statement}

theorem nil : Reads [] [] := ⟨by simp, rfl⟩

theorem append (h : Reads lines statements) (hmore : Reads more others) :
    Reads (lines ++ more) (statements ++ others) :=
  ⟨List.forall_mem_append.2 ⟨h.noBreak, hmore.noBreak⟩,
    by rw [List.filterMap_append, h.statements_eq, hmore.statements_eq]⟩

theorem statement {line : String} {statement : Statement} (hbreak : '\n' ∉ line.toList)
    (h : Statement.ofLine? line = some statement) : Reads [line] [statement] :=
  ⟨by simpa using hbreak, by simp [h]⟩

theorem other {line : String} (hbreak : '\n' ∉ line.toList)
    (h : Statement.ofLine? line = none) : Reads [line] [] :=
  ⟨by simpa using hbreak, by simp [h]⟩

theorem indent (h : Reads lines statements) (depth : Nat) :
    Reads (lines.map (indented depth)) statements := by
  constructor
  · rw [List.forall_mem_map]
    intro line hline
    simpa [indented] using h.noBreak line hline
  · rw [List.filterMap_map, ← h.statements_eq]
    exact List.filterMap_congr fun line _ => Statement.ofLine?_indented depth line

theorem flatMap {α : Type} {items : List α} {f : α → List String} {g : α → List Statement}
    (h : ∀ a ∈ items, Reads (f a) (g a)) : Reads (items.flatMap f) (items.flatMap g) := by
  induction items with
  | nil => exact nil
  | cons a rest ih =>
    obtain ⟨hfirst, hrest⟩ := List.forall_mem_cons.1 h
    rw [List.flatMap_cons, List.flatMap_cons]
    exact hfirst.append (ih hrest)

theorem map {α : Type} {items : List α} {f : α → String} {g : α → Statement}
    (h : ∀ a ∈ items, Reads [f a] [g a]) : Reads (items.map f) (items.map g) := by
  rw [List.map_eq_flatMap, List.map_eq_flatMap]
  exact flatMap h

end Reads

theorem IsWord.noBreak {s : String} (h : IsWord s) : '\n' ∉ s.toList :=
  fun hmem => by simpa [Identifier.isWordChar] using h _ hmem

theorem noBreak_digits (n : Nat) : '\n' ∉ Nat.toDigits 10 n :=
  fun h => absurd (Nat.isDigit_of_mem_toDigits (by decide) (by decide) h) (by decide)

theorem noBreak_hexLiteral (n : Nat) : '\n' ∉ (hexLiteral n).toList := by
  have hdigits := not_mem_hexDigits (c := '\n') (by decide) n
  simpa [hexLiteral] using hdigits

theorem noBreak_intercalate {parts : List String} (h : ∀ part ∈ parts, '\n' ∉ part.toList) :
    '\n' ∉ ", ".toList.intercalate (parts.map String.toList) := by
  induction parts with
  | nil => simp
  | cons part rest ih =>
    obtain ⟨hpart, hrest⟩ := List.forall_mem_cons.1 h
    cases rest with
    | nil => simpa using hpart
    | cons next others =>
      rw [List.map_cons, List.map_cons, List.intercalate_cons_cons, ← List.map_cons]
      simp only [List.mem_append, not_or]
      exact ⟨⟨hpart, by decide⟩, ih hrest⟩

theorem noBreak_rights (r : Rights) : '\n' ∉ r.word.toList := by cases r <;> decide

theorem reads_blank : Reads [""] [] := .other (by decide) (by decide)

theorem reads_opening {name base : String} (hname : IsWord name) (hbase : '\n' ∉ base.toList) :
    Reads [indented 1 ("class " ++ name ++ " extends " ++ base ++ ";"),
      indented 2 ("`uvm_object_utils(" ++ name ++ ")"), ""] [.opens name] := by
  have hfirst : Reads ["class " ++ name ++ " extends " ++ base ++ ";"] [.opens name] :=
    .statement (by simp [hname.noBreak, hbase]) (Statement.ofLine?_opens hname base)
  have hutils : Reads ["`uvm_object_utils(" ++ name ++ ")"] [] :=
    .other (by simp [hname.noBreak]) (Statement.ofLine?_eq_none ""
      ("`uvm_object_utils(".toList ++ (name.toList ++ [')'])) (by decide) (by decide)
      (stops_of_ends (by decide) _) (by simp) (by simp) (by simp))
  exact (hfirst.indent 1).append ((hutils.indent 2).append reads_blank)

theorem reads_new {name arguments : String} (hname : IsWord name)
    (harguments : '\n' ∉ arguments.toList) :
    Reads [indented 2 ("function new(string name = \"" ++ name ++ "\");"),
      indented 3 ("super.new(name, " ++ arguments ++ ");"), indented 2 "endfunction"] [] := by
  have hfunction : Reads ["function new(string name = \"" ++ name ++ "\");"] [] :=
    .other (by simp [hname.noBreak]) (Statement.ofLine?_keyword "function" "new"
      ("string name = \"" ++ name ++ "\");").toList (by decide) (by decide) (by decide)
      (by simp) (by simp))
  have hsuper : Reads ["super.new(name, " ++ arguments ++ ");"] [] :=
    .other (by simp [harguments]) (Statement.ofLine?_eq_none "super"
      (".new(name, ".toList ++ (arguments ++ ");").toList) (by decide) (by decide)
      (stops_of_ends (by decide) _) (by simp) (by simp) (by simp))
  have hend : Reads ["endfunction"] [] := .other (by decide) (by decide)
  exact (hfunction.indent 2).append ((hsuper.indent 3).append (hend.indent 2))

theorem reads_declarationLines {declarations : List String} {declared : List Statement}
    (h : Reads declarations declared) : Reads (declarationLines declarations) declared := by
  unfold declarationLines
  split
  case isTrue hnone =>
    obtain rfl := List.isEmpty_iff.1 hnone
    exact h
  case isFalse => simpa using (h.indent 2).append reads_blank

theorem reads_classLines {name base arguments : String} {declarations : List String}
    {build : Option (List String)} {declared built : List Statement} (hname : IsWord name)
    (hbase : '\n' ∉ base.toList) (harguments : '\n' ∉ arguments.toList)
    (hdeclared : Reads declarations declared) (hbuilt : Reads (build.getD []) built) :
    Reads (classLines name base arguments declarations build)
      (.opens name :: (declared ++ built)) := by
  have hfront := ((reads_opening hname hbase).append (reads_declarationLines hdeclared)).append
    (reads_new hname harguments)
  have hclass : Reads [indented 1 "endclass"] [] := .other (by decide) (by decide)
  have hend : Reads [indented 1 "endclass", ""] [] := hclass.append reads_blank
  cases build with
  | none => simpa [classLines] using (hfront.append hbuilt).append hend
  | some lines =>
    have hbuild : Reads [indented 2 "virtual function void build();"] [] :=
      .other (by decide) (by decide)
    have hfunction : Reads ["", indented 2 "virtual function void build();"] [] :=
      reads_blank.append hbuild
    have hclose : Reads [indented 2 "endfunction"] [] := .other (by decide) (by decide)
    have hinside := (hfunction.append (hbuilt.indent 3)).append hclose
    simpa [classLines] using (hfront.append hinside).append hend

/-- What the lines of a register say once it is opened. -/
def RegisterClass.body (c : RegisterClass) : List Statement :=
  c.fields.toList.map (fun f => .declares "uvm_reg_field" f.name []) ++
    c.fields.toList.map fun f => .creates "uvm_reg_field" f.name

/-- What the lines of a block say once it is opened: its handles are declared, and each of
them is created and mapped before the next one. -/
def BlockClass.body (c : BlockClass) : List Statement :=
  c.members.toList.map (fun m => .declares m.className m.name m.dimensions) ++
    c.members.toList.flatMap fun m => .creates m.className m.name ::
      m.places.map fun place => .maps m.kind m.name place.1 place.2

theorem reads_createField {f : FieldMember} (hname : IsWord f.name) :
    Reads ["this." ++ f.name ++ " = uvm_reg_field::type_id::create(\"" ++ f.name ++
      "\", null, get_full_name());"] [.creates "uvm_reg_field" f.name] := by
  refine .statement (by simp [hname.noBreak]) ?_
  let rest := ("\"" ++ f.name ++ "\", null, get_full_name());").toList
  have hclass : IsWord "uvm_reg_field" := by decide
  have hcreated := Statement.created?_append hclass f.name List.not_mem_nil rest
  rw [List.nil_append] at hcreated
  rw [Statement.ofLine?_of_this f.name (" = ".toList ++
    ("uvm_reg_field".toList ++ ("::type_id::create(".toList ++ rest))) hname
    (stops_of_ends (by decide) _) (by simp [rest]), hcreated, Statement.mapped?_eq_none (by simp)]
  rfl

/-- A number is not taken for what is assigned. -/
theorem exists_cons_of_digits (n : Nat) (tail : List Char) :
    ∃ c rest, ' ' :: (Nat.toDigits 10 n ++ ',' :: tail) = ' ' :: c :: rest ∧ c ≠ '=' := by
  cases hdigits : Nat.toDigits 10 n with
  | nil => exact ⟨',', tail, rfl, by decide⟩
  | cons c more =>
    refine ⟨c, more ++ ',' :: tail, rfl, ?_⟩
    rintro rfl
    have hmem : '=' ∈ Nat.toDigits 10 n := hdigits ▸ List.mem_cons_self
    exact absurd (Nat.isDigit_of_mem_toDigits (by decide) (by decide) hmem) (by decide)

theorem reads_configure {f : FieldMember} (hname : IsWord f.name) (isOnly : Bool) :
    Reads ["this." ++ f.name ++ ".configure(" ++ ", ".intercalate
      ["this", toString f.width, toString f.lsb, "\"" ++ f.access.word ++ "\"",
        bit f.isVolatile, Text.hexLiteral (f.reset.getD 0), bit f.reset.isSome, bit f.isWritable,
        bit isOnly] ++ ");"] [] := by
  have hbits (b : Bool) : '\n' ∉ (bit b).toList := by cases b <;> decide
  have haccess : '\n' ∉ f.access.word.toList := by cases f.access <;> decide
  refine .other (by simp [hname.noBreak, noBreak_digits, haccess, hbits, noBreak_hexLiteral]) ?_
  obtain ⟨tail, htail⟩ : ∃ tail, (", ".intercalate ["this", toString f.width, toString f.lsb,
      "\"" ++ f.access.word ++ "\"", bit f.isVolatile, Text.hexLiteral (f.reset.getD 0),
      bit f.reset.isSome, bit f.isWritable, bit isOnly] ++ ");").toList =
        "this,".toList ++ ' ' :: (Nat.toDigits 10 f.width ++ ',' :: tail) :=
    ⟨_, by simp; rfl⟩
  rw [Statement.ofLine?_of_this f.name (".configure(this,".toList ++
      ' ' :: (Nat.toDigits 10 f.width ++ ',' :: tail)) hname (stops_of_ends (by decide) _)
      (by rw [String.append_assoc, String.toList_append, htail]; simp),
    Statement.mapped?_eq_none (by simp),
    Statement.created?_eq_none (by decide) (Or.inr (exists_cons_of_digits f.width tail))]
  rfl

theorem reads_field {f : FieldMember} (hname : IsWord f.name) (isOnly : Bool) :
    Reads (f.buildLines isOnly) [.creates "uvm_reg_field" f.name] :=
  (reads_createField hname).append (reads_configure hname isOnly)

theorem reads_fieldDeclaration {f : FieldMember} (hname : IsWord f.name) :
    Reads [f.declaration] [.declares "uvm_reg_field" f.name []] := by
  have hline : f.declaration =
      "rand " ++ "uvm_reg_field" ++ " " ++ f.name ++ subscripts [] ++ ";" := by
    apply String.toList_inj.1
    unfold FieldMember.declaration
    simp [subscripts]
  have hbreak := hname.noBreak
  refine .statement ?_ ?_
  · unfold FieldMember.declaration
    simp [hbreak]
  · rw [hline]
    exact Statement.ofLine?_rand (by decide) hname []

theorem reads_registerClass {c : RegisterClass} (hname : IsWord c.name)
    (hfields : ∀ f ∈ c.fields.toList, IsWord f.name) :
    Reads c.lines (.opens c.name :: c.body) := by
  have hdeclared : Reads (c.fields.toList.map FieldMember.declaration)
      (c.fields.toList.map fun f => .declares "uvm_reg_field" f.name []) :=
    .map fun f hf => reads_fieldDeclaration (hfields f hf)
  have hbuilt : Reads
      (c.fields.toList.flatMap (FieldMember.buildLines (c.fields.toList.length == 1)))
      (c.fields.toList.map fun f => .creates "uvm_reg_field" f.name) := by
    rw [List.map_eq_flatMap]
    exact .flatMap fun f hf => reads_field (hfields f hf) _
  have harguments : '\n' ∉ (toString c.width ++ ", UVM_NO_COVERAGE").toList := by
    simp [noBreak_digits]
  have hbase : '\n' ∉ "uvm_reg".toList := by decide
  unfold RegisterClass.lines RegisterClass.body
  exact reads_classLines hname hbase harguments hdeclared hbuilt

theorem reads_memoryClass {c : MemoryClass} (hname : IsWord c.name) :
    Reads c.lines [.opens c.name] := by
  have hbase : '\n' ∉ "uvm_mem".toList := by decide
  have hbuild : Reads ((none : Option (List String)).getD []) [] := .nil
  refine reads_classLines hname hbase ?_ .nil hbuild
  simp [noBreak_digits, noBreak_rights]

/-! The lines of a block. -/

/-- Subscripts behind the name of a handle, which may be numbers or counters. -/
structure AreSubscripts (brackets : List Char) : Prop where
  noBreak : '\n' ∉ brackets
  noBlank : ' ' ∉ brackets
  noDot : ∀ c, brackets.head? = some c → c = '['

theorem AreSubscripts.stops {brackets rest : List Char} (h : AreSubscripts brackets)
    (hrest : Stops Identifier.isWordChar rest) :
    Stops Identifier.isWordChar (brackets ++ rest) := by
  cases brackets with
  | nil => exact hrest
  | cons c more =>
    obtain rfl := h.noDot c rfl
    exact stops_cons (by decide) _

def calls : List String :=
  [".configure(this, null, \"\");", ".configure(this, \"\");", ".build();"]

/-- What is called on an instance, behind its name and its subscripts. -/
theorem reads_call {line name call : String} {brackets : List Char} (hname : IsWord name)
    (hbrackets : AreSubscripts brackets) (hcall : call ∈ calls)
    (hline : line.toList = "this.".toList ++ (name.toList ++ (brackets ++ call.toList))) :
    Reads [line] [] := by
  have hbreak : ∀ call ∈ calls, '\n' ∉ call.toList := by decide
  have hcalls : ∀ call ∈ calls, Ends call ∧ ¬ ".add_".toList <+: call.toList := by decide
  have hstops : Stops Identifier.isWordChar call.toList := by
    simpa using stops_of_ends (hcalls call hcall).1 []
  have hmaps : ¬ ".add_".toList <+: brackets ++ call.toList := by
    cases brackets with
    | nil => exact (hcalls call hcall).2
    | cons c more =>
      obtain rfl := hbrackets.noDot c rfl
      simp
  obtain ⟨front, more, hfront, hmore, hsplit⟩ : ∃ front more, ' ' ∉ front ∧
      (more = [] ∨ ∃ c rest, more = ' ' :: c :: rest ∧ c ≠ '=') ∧
        call.toList = front ++ more := by
    simp only [calls, List.mem_cons, List.not_mem_nil, or_false] at hcall
    rcases hcall with rfl | rfl | rfl
    · exact ⟨".configure(this,".toList, " null, \"\");".toList, by decide,
        Or.inr ⟨'n', _, by simp; rfl, by decide⟩, by decide⟩
    · exact ⟨".configure(this,".toList, " \"\");".toList, by decide,
        Or.inr ⟨'"', _, by simp; rfl, by decide⟩, by decide⟩
    · exact ⟨".build();".toList, [], by decide, Or.inl rfl, by decide⟩
  refine .other ?_ ?_
  · rw [hline]
    simp [hname.noBreak, hbrackets.noBreak, hbreak call hcall]
  · rw [Statement.ofLine?_of_this name _ hname (hbrackets.stops hstops) hline,
      Statement.mapped?_eq_none hmaps, hsplit, ← List.append_assoc,
      Statement.created?_eq_none ?_ hmore]
    · rfl
    · simp [hbrackets.noBlank, hfront]

/-- The line that creates an instance, behind its name and its subscripts. -/
theorem reads_create {line name className : String} (brackets rest : List Char)
    (hname : IsWord name) (hclass : IsWord className) (hbrackets : AreSubscripts brackets)
    (hrest : '\n' ∉ rest)
    (hline : line.toList = "this.".toList ++ (name.toList ++ (brackets ++ (" = ".toList ++
      (className.toList ++ ("::type_id::create(".toList ++ rest)))))) :
    Reads [line] [.creates className name] := by
  refine .statement ?_ ?_
  · rw [hline]
    simp [hname.noBreak, hbrackets.noBreak, hclass.noBreak, hrest]
  · have hmaps : ¬ ".add_".toList <+: brackets ++ (" = ".toList ++ (className.toList ++
        ("::type_id::create(".toList ++ rest))) := by
      cases brackets with
      | nil => simp
      | cons c more =>
        obtain rfl := hbrackets.noDot c rfl
        simp
    rw [Statement.ofLine?_of_this name _ hname
        (hbrackets.stops (stops_of_ends (by decide) _)) hline,
      Statement.mapped?_eq_none hmaps, Statement.created?_append hclass name hbrackets.noBlank]
    rfl

theorem mem_configureCalls (m : Member) : ∀ call ∈ m.configureCalls, call ∈ calls := by
  unfold Member.configureCalls
  cases m.kind <;> decide

theorem reads_calls {m : Member} (brackets : List Char) {handle : String}
    (hname : IsWord m.name) (hbrackets : AreSubscripts brackets)
    (hhandle : handle.toList = "this.".toList ++ (m.name.toList ++ brackets)) :
    Reads (m.configureCalls.map (handle ++ ·)) [] := by
  have hall : Reads (m.configureCalls.flatMap fun call => [handle ++ call])
      (m.configureCalls.flatMap fun _ => []) :=
    .flatMap fun call hcall => reads_call hname hbrackets (mem_configureCalls m call hcall)
      (by simp [hhandle])
  rwa [← List.map_eq_flatMap, List.flatMap_eq_nil_iff.2 fun _ _ => rfl] at hall

/-- The subscripts of the instances that a loop creates. -/
def Member.counters (m : Member) : List String :=
  (List.range m.dimensions.length).map fun i => "i" ++ toString i

theorem not_mem_counter {c : Char} (hdigit : c.isDigit = false) (hletter : c ≠ 'i') {m : Member} :
    ∀ counter ∈ m.counters, c ∉ counter.toList := by
  intro counter hcounter
  obtain ⟨i, _, rfl⟩ := List.mem_map.1 hcounter
  have hnumber := not_mem_toString hdigit i
  simp_all

theorem areSubscripts_counters (m : Member) :
    AreSubscripts (String.join (m.counters.map fun v => "[" ++ v ++ "]")).toList := by
  have hfree {c : Char} (hdigit : c.isDigit = false) (hother : c ≠ 'i' ∧ c ≠ '[' ∧ c ≠ ']') :
      c ∉ (String.join (m.counters.map fun v => "[" ++ v ++ "]")).toList := by
    have hcounter := not_mem_counter (m := m) hdigit hother.1
    simp only [String.toList_join, List.mem_flatMap, List.mem_map, not_exists, not_and]
    rintro _ ⟨v, hv, rfl⟩
    simp [hother.2, hcounter v hv]
  refine ⟨hfree (by decide) (by decide), hfree (by decide) (by decide), fun c hc => ?_⟩
  cases hcounters : m.counters with
  | nil => simp [hcounters] at hc
  | cons v rest => simpa [hcounters, eq_comm] using hc

/-- An instance is created, or all instances of an array in a loop. -/
theorem reads_createLines {m : Member} (hname : IsWord m.name) (hclass : IsWord m.className) :
    Reads m.createLines [.creates m.className m.name] := by
  have hbreak := hname.noBreak
  have hlisted : '\n' ∉ [',', ' '].intercalate (m.counters.map String.toList) :=
    noBreak_intercalate (not_mem_counter (by decide) (by decide))
  have hcreated : Reads ["this." ++ m.name ++ " = " ++ m.className ++ "::type_id::create(\"" ++
      m.name ++ "\");"] [.creates m.className m.name] :=
    reads_create [] ("\"" ++ m.name ++ "\");").toList hname hclass
      ⟨by simp, by simp, by simp⟩ (by simp [hbreak]) (by simp)
  have hcalls : Reads (m.configureCalls.map ("this." ++ m.name ++ ·)) [] :=
    reads_calls [] hname ⟨by simp, by simp, by simp⟩ (by simp)
  let brackets := String.join (m.counters.map fun v => "[" ++ v ++ "]")
  let pattern := String.join (m.counters.map fun _ => "[%0d]")
  have hpattern : '\n' ∉ pattern.toList := by
    simp [pattern, String.toList_join]
  have hcreatedAll : Reads ["this." ++ m.name ++ brackets ++ " = " ++ m.className ++
      "::type_id::create($sformatf(\"" ++ m.name ++ pattern ++ "\", " ++
        ", ".intercalate m.counters ++ "));"] [.creates m.className m.name] :=
    reads_create brackets.toList ("$sformatf(\"" ++ m.name ++ pattern ++ "\", " ++
      ", ".intercalate m.counters ++ "));").toList hname hclass
      (areSubscripts_counters m) (by simp [hbreak, hpattern, hlisted]) (by simp)
  have hcallsAll : Reads (m.configureCalls.map ("this." ++ m.name ++ brackets ++ ·)) [] :=
    reads_calls brackets.toList hname (areSubscripts_counters m) (by simp [brackets])
  have hloop : Reads ["foreach (this." ++ m.name ++ "[" ++ ", ".intercalate m.counters ++
      "]) begin"] [] :=
    .other (by simp [hbreak, hlisted]) (Statement.ofLine?_keyword "foreach" ""
      ("this." ++ m.name ++ "[" ++ ", ".intercalate m.counters ++ "]) begin").toList
      (by decide) (by decide) (by decide) (by simp) (by simp))
  have hend : Reads ["end"] [] := .other (by decide) (by decide)
  dsimp only [Member.createLines]
  split
  · exact hcreated.append hcalls
  · exact (hloop.append ((hcreatedAll.append hcallsAll).indent 1)).append hend

theorem reads_member {m : Member} (hname : IsWord m.name) (hclass : IsWord m.className) :
    Reads m.buildLines (.creates m.className m.name ::
      m.places.map fun place => .maps m.kind m.name place.1 place.2) := by
  have hmapped : Reads m.mapLines
      (m.places.map fun place => .maps m.kind m.name place.1 place.2) := by
    rw [Member.mapLines_eq]
    refine .map fun place _ => .statement ?_ (Statement.ofLine?_mapLine hname place.1 place.2)
    have hindex : '\n' ∉ (subscripts place.1).toList :=
      fun hmem => absurd (isSubscriptChar_of_mem place.1 _ hmem) (by decide)
    have hrights := noBreak_rights m.rights
    unfold Member.mapLine
    cases m.kind <;> simp [hname.noBreak, hindex, hrights, noBreak_hexLiteral]
  exact (reads_createLines hname hclass).append hmapped

theorem reads_declaration {m : Member} (hname : IsWord m.name) (hclass : IsWord m.className)
    (hne : m.className.toList ≠ []) :
    Reads [m.declaration] [.declares m.className m.name m.dimensions] := by
  have hindex : '\n' ∉ (subscripts m.dimensions).toList :=
    fun hmem => absurd (isSubscriptChar_of_mem m.dimensions _ hmem) (by decide)
  unfold Member.declaration
  split
  · refine .statement (by simp [hname.noBreak, hclass.noBreak, hindex]) ?_
    rw [String.empty_append]
    exact Statement.ofLine?_plain hclass hne hname m.dimensions
  · exact .statement (by simp [hname.noBreak, hclass.noBreak, hindex])
      (Statement.ofLine?_rand hclass hname m.dimensions)

/-- A member whose names are words. -/
structure Member.IsNamed (m : Member) : Prop where
  name : IsWord m.name
  className : IsWord m.className
  ne : m.className.toList ≠ []

theorem reads_blockClass {c : BlockClass} (hname : IsWord c.name)
    (hmembers : ∀ m ∈ c.members.toList, m.IsNamed) (isTop : Bool) :
    Reads (c.lines isTop) (.opens c.name :: c.body) := by
  have hdeclared : Reads (c.members.toList.map Member.declaration)
      (c.members.toList.map fun m => .declares m.className m.name m.dimensions) :=
    .map fun m hm =>
      reads_declaration (hmembers m hm).name (hmembers m hm).className (hmembers m hm).ne
  have hbuilt : Reads (c.members.toList.flatMap Member.buildLines)
      (c.members.toList.flatMap fun m => .creates m.className m.name ::
        m.places.map fun place => .maps m.kind m.name place.1 place.2) :=
    .flatMap fun m hm => reads_member (hmembers m hm).name (hmembers m hm).className
  have hmap : Reads ["this.default_map = create_map(\"default_map\", 0, " ++ toString c.mapBytes ++
      ", UVM_LITTLE_ENDIAN);"] [] := by
    refine .other (by simp [noBreak_digits]) ?_
    let rest := ("\"default_map\", 0, " ++ toString c.mapBytes ++ ", UVM_LITTLE_ENDIAN);").toList
    rw [Statement.ofLine?_of_this "default_map" (" = ".toList ++
        ("create_map".toList ++ ("(".toList ++ rest))) (by decide) (stops_of_ends (by decide) _)
        (by simp [rest]), Statement.mapped?_eq_none (by simp),
      Statement.created?_function (by decide)]
    rfl
  have hlock : Reads (if isTop then ["lock_model();"] else []) [] := by
    cases isTop with
    | true => exact .other (by decide) (by decide)
    | false => exact .nil
  have hbase : '\n' ∉ "uvm_reg_block".toList := by decide
  have harguments : '\n' ∉ "UVM_NO_COVERAGE".toList := by decide
  have hinside := (hmap.append hbuilt).append hlock
  rw [List.nil_append, List.append_nil] at hinside
  unfold BlockClass.lines BlockClass.body
  exact reads_classLines hname hbase harguments hdeclared hinside

end RegisterMap.Uvm
