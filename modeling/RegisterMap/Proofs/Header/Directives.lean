import RegisterMap.Proofs.Guards
import RegisterMap.Proofs.Header.Constants
import RegisterMap.Proofs.Text.Identifier
import RegisterMap.Proofs.Text.Number
import RegisterMap.Proofs.Text.Split

/-!
The directives of a header, read back from its lines. The names and the values of
constants are made of harmless characters, and so each of them is one directive. The
comment of a block has the path of an element, which may be any text: where a line break
and the mark of a directive are in it, the comment is followed by a directive that
nobody asked for.
-/

namespace RegisterMap.Header

open ExportM

/-! Reading a header. -/

/-- The directives among the lines of a text. -/
def directives (dialect : HeaderDialect) (text : String) : List String :=
  ((Text.splitAt '\n' text.toList).filter dialect.mark.toList.isPrefixOf).map String.ofList

/-- The name that a directive defines. -/
def definedName? (dialect : HeaderDialect) (line : String) : Option String :=
  let word := (dialect.mark ++ "define ").toList
  if word.isPrefixOf line.toList then
    some (String.ofList ((line.toList.drop word.length).takeWhile (· ≠ ' ')))
  else none

/-- The directive that defines a constant. -/
def definition (dialect : HeaderDialect) (c : Constant) : String :=
  dialect.mark ++ "define " ++ c.1 ++ " " ++ c.2

/-- The directives of the header of some constants: a guard around one definition each. -/
def guarded (dialect : HeaderDialect) (file : Path) (constants : List Constant) : List String :=
  [dialect.mark ++ "ifndef " ++ guardName file, dialect.mark ++ "define " ++ guardName file] ++
    constants.map (definition dialect) ++ [dialect.mark ++ "endif"]

/-- A text whose directives are those of the header of some constants, and define legal
names, each of them once. -/
structure IsExact (dialect : HeaderDialect) (file : Path) (constants : List Constant)
    (text : String) : Prop where
  directives_eq : directives dialect text = guarded dialect file constants
  isMacro : ∀ name ∈ (directives dialect text).filterMap (definedName? dialect),
    Identifier.isMacro name = true
  nodup : ((directives dialect text).filterMap (definedName? dialect)).Nodup

/-- A text with a directive behind a line break. -/
def HidesDirective (dialect : HeaderDialect) (text : String) : Prop :=
  '\n' :: dialect.mark.toList <:+: text.toList

instance (dialect : HeaderDialect) (text : String) : Decidable (HidesDirective dialect text) :=
  inferInstanceAs (Decidable (_ <:+: _))

variable (dialect : HeaderDialect)

theorem directives_append_line (front rest : String) :
    directives dialect (front ++ "\n" ++ rest) =
      directives dialect front ++ directives dialect rest := by
  have hchars : (front ++ "\n" ++ rest).toList = front.toList ++ '\n' :: rest.toList := by simp
  rw [directives, hchars, Text.splitAt_append_sep, List.filter_append, List.map_append]
  rfl

theorem directives_empty : directives dialect "" = [] := by
  cases dialect <;> rfl

/-- A line with a mark in front is a directive. -/
theorem directives_mark {line : String} (h : '\n' ∉ line.toList) :
    directives dialect (dialect.mark ++ line) = [dialect.mark ++ line] := by
  have hbreak : '\n' ∉ (dialect.mark ++ line).toList := by
    cases dialect <;> simpa [HeaderDialect.mark] using h
  have hmark : dialect.mark.toList.isPrefixOf (dialect.mark ++ line).toList = true := by
    rw [List.isPrefixOf_iff_prefix, String.toList_append]
    exact List.prefix_append _ _
  rw [directives, Text.splitAt_of_not_mem hbreak, List.filter_cons_of_pos hmark]
  simp

/-- A comment is no directive, unless it hides one. -/
theorem directives_comment_eq_nil_iff (text : String) :
    directives dialect ("// " ++ text) = [] ↔ ¬ HidesDirective dialect text := by
  have hmark : '\n' ∉ dialect.mark.toList := by cases dialect <;> decide
  have hcomment : '\n' ∉ "// ".toList := by decide
  obtain ⟨piece, pieces, hpieces, hsplit⟩ := Text.splitAt_append hcomment text.toList
  have hfirst : ¬ dialect.mark.toList.isPrefixOf ("// ".toList ++ piece) = true := by
    cases dialect <;> simp [HeaderDialect.mark]
  rw [HidesDirective, ← Text.exists_prefix_tail_splitAt_iff hmark, hpieces, List.tail_cons,
    directives, String.toList_append, hsplit, List.filter_cons_of_neg hfirst, List.map_eq_nil_iff,
    List.filter_eq_nil_iff]
  simp

/-! The lines of a header. -/

def Line.block? : Line → Option String
  | .block path => some path
  | .constant _ _ => none

/-- The directives of a line: its definition, or what a comment hides. -/
def Line.directives : Line → List String
  | .block path => Header.directives dialect ("// " ++ path)
  | .constant name value => [definition dialect (name, value)]

/-- A constant whose definition is one directive, of a legal name. -/
structure IsPlain (c : Constant) : Prop where
  isMacro : Identifier.isMacro c.1 = true
  value : '\n' ∉ c.2.toList

theorem not_mem_of_isMacro {name : String} (h : Identifier.isMacro name = true) {c : Char}
    (hc : Identifier.isMacroChar c = false) : c ∉ name.toList := by
  intro hmem
  rw [Identifier.isMacro, Bool.and_eq_true, List.all_eq_true] at h
  simp [h.2 c hmem] at hc

theorem directives_lines {lines : List Line}
    (hplain : ∀ c ∈ lines.filterMap Line.constant?, IsPlain c) (rest : String) :
    directives dialect (String.join (lines.map (Line.render dialect)) ++ rest) =
      lines.flatMap (Line.directives dialect) ++ directives dialect rest := by
  induction lines with
  | nil => simp
  | cons line more ih =>
    cases line with
    | block path =>
      have hmore := ih hplain
      have htext : String.join ((Line.block path :: more).map (Line.render dialect)) ++ rest =
          "" ++ "\n" ++ (("// " ++ path) ++ "\n" ++
            (String.join (more.map (Line.render dialect)) ++ rest)) := by
        apply String.toList_inj.1
        simp [Line.render]
      rw [htext, directives_append_line, directives_append_line, directives_empty, hmore]
      simp [Line.directives]
    | constant name value =>
      obtain ⟨hfirst, hmore⟩ := List.forall_mem_cons.1 hplain
      have htext : String.join ((Line.constant name value :: more).map (Line.render dialect)) ++
          rest = (dialect.mark ++ ("define " ++ name ++ " " ++ value)) ++ "\n" ++
            (String.join (more.map (Line.render dialect)) ++ rest) := by
        simp [Line.render, String.append_assoc]
      have hbreak : '\n' ∉ ("define " ++ name ++ " " ++ value).toList := by
        have hname := not_mem_of_isMacro hfirst.isMacro (c := '\n') (by decide)
        have hvalue := hfirst.value
        simp_all
      rw [htext, directives_append_line, directives_mark dialect hbreak, ih hmore]
      simp [Line.directives, definition, String.append_assoc]

theorem length_constants_le (lines : List Line) :
    (lines.filterMap Line.constant?).length ≤ (lines.flatMap (Line.directives dialect)).length := by
  induction lines with
  | nil => simp
  | cons line more ih =>
    cases line with
    | block path =>
      simp only [List.filterMap_cons, Line.constant?, List.flatMap_cons, List.length_append]
      omega
    | constant name value => simpa [Line.constant?, Line.directives] using ih

/-- The directives of some lines define their constants just where no comment hides one. -/
theorem flatMap_directives_eq_iff (lines : List Line) :
    lines.flatMap (Line.directives dialect) =
        (lines.filterMap Line.constant?).map (definition dialect) ↔
      ∀ path ∈ lines.filterMap Line.block?, ¬ HidesDirective dialect path := by
  induction lines with
  | nil => simp
  | cons line more ih =>
    cases line with
    | block path =>
      simp only [List.filterMap_cons, Line.constant?, Line.block?, List.flatMap_cons,
        Line.directives, List.forall_mem_cons]
      rw [← ih, ← directives_comment_eq_nil_iff]
      constructor
      · intro h
        have hmore := length_constants_le dialect more
        have hlength := congrArg List.length h
        rw [List.length_append, List.length_map] at hlength
        have hnone : directives dialect ("// " ++ path) = [] :=
          List.eq_nil_of_length_eq_zero (by omega)
        rw [hnone, List.nil_append] at h
        exact ⟨hnone, h⟩
      · rintro ⟨hnone, h⟩
        rw [hnone, List.nil_append, h]
    | constant name value =>
      simpa [Line.constant?, Line.block?, Line.directives] using ih

/-! What the directives define. -/

theorem definedName?_of_define {name : String} (hname : Identifier.isMacro name = true)
    (rest : String) (hrest : rest.toList.head? = none ∨ rest.toList.head? = some ' ') :
    definedName? dialect (dialect.mark ++ "define " ++ name ++ rest) = some name := by
  have hblank := not_mem_of_isMacro hname (c := ' ') (by decide)
  have hchars : (dialect.mark ++ "define " ++ name ++ rest).toList =
      (dialect.mark ++ "define ").toList ++ (name.toList ++ rest.toList) := by simp
  have htake : (name.toList ++ rest.toList).takeWhile (· ≠ ' ') = name.toList := by
    rw [List.takeWhile_append_of_pos fun c hc => by simpa using ne_of_mem_of_not_mem hc hblank]
    cases hrest' : rest.toList with
    | nil => simp
    | cons c more =>
      obtain rfl : c = ' ' := by simpa [hrest'] using hrest
      simp
  have hword : (dialect.mark ++ "define ").toList.isPrefixOf
      (dialect.mark ++ "define " ++ name ++ rest).toList = true := by
    rw [List.isPrefixOf_iff_prefix, hchars]
    exact List.prefix_append _ _
  unfold definedName?
  rw [if_pos hword, hchars, List.drop_left, htake, String.ofList_toList]

theorem definedName?_of_other {word : String} (h : ¬ "define ".toList <+: word.toList) :
    definedName? dialect (dialect.mark ++ word) = none := by
  have hword : ¬ (dialect.mark ++ "define ").toList.isPrefixOf
      (dialect.mark ++ word).toList = true := by
    rw [List.isPrefixOf_iff_prefix, String.toList_append, String.toList_append,
      List.prefix_append_right_inj]
    exact h
  unfold definedName?
  rw [if_neg hword]

/-- The guard is defined first, and then every constant. -/
theorem filterMap_guarded (file : Path) {constants : List Constant}
    (hguard : Identifier.isMacro (guardName file) = true) (hplain : ∀ c ∈ constants, IsPlain c) :
    (guarded dialect file constants).filterMap (definedName? dialect) =
      guardName file :: constants.map Prod.fst := by
  have hifndef : definedName? dialect (dialect.mark ++ "ifndef " ++ guardName file) = none := by
    rw [String.append_assoc]
    exact definedName?_of_other dialect (by simp)
  have hdefine : definedName? dialect (dialect.mark ++ "define " ++ guardName file) =
      some (guardName file) := by
    simpa using definedName?_of_define dialect hguard "" (Or.inl rfl)
  have hendif : definedName? dialect (dialect.mark ++ "endif") = none :=
    definedName?_of_other dialect (by decide)
  have hconstants : (constants.map (definition dialect)).filterMap (definedName? dialect) =
      constants.map Prod.fst := by
    rw [List.filterMap_map, ← List.filterMap_eq_map]
    apply List.filterMap_congr
    intro c hc
    have hdefined :=
      definedName?_of_define dialect (hplain c hc).isMacro (" " ++ c.2) (Or.inr (by simp))
    simpa [definition, String.append_assoc] using hdefined
  simp [guarded, hifndef, hdefine, hendif, hconstants]

/-! A header as a whole. -/

theorem isMacro_guardName (file : Path) : Identifier.isMacro (guardName file) = true := by
  have hunderscores : Identifier.IsFront Identifier.isMacroChar "__".toList := by
    decide
  have hname := Identifier.isFront_macroChars [file.fileName?.getD ""]
  have hchars : (guardName file).toList =
      "__".toList ++ (Identifier.macroChars [file.fileName?.getD ""] ++ "__".toList) := by
    simp [guardName, Identifier.macroName]
  apply Identifier.isMacro_of_front
  · rw [hchars]
    exact hunderscores.append (hname.append hunderscores)
  · simp [hchars]

theorem directives_render (file : Path) {lines : List Line}
    (hplain : ∀ c ∈ lines.filterMap Line.constant?, IsPlain c) :
    directives dialect (render dialect file lines) =
      [dialect.mark ++ "ifndef " ++ guardName file, dialect.mark ++ "define " ++ guardName file] ++
        lines.flatMap (Line.directives dialect) ++ [dialect.mark ++ "endif"] := by
  have htext : render dialect file lines =
      (dialect.mark ++ ("ifndef " ++ guardName file)) ++ "\n" ++
        ((dialect.mark ++ ("define " ++ guardName file)) ++ "\n" ++
          (String.join (lines.map (Line.render dialect)) ++
            ("" ++ "\n" ++ ((dialect.mark ++ "endif") ++ "\n" ++ "")))) := by
    apply String.toList_inj.1
    simp [render]
  have hname := not_mem_of_isMacro (isMacro_guardName file) (c := '\n') (by decide)
  rw [htext, directives_append_line, directives_append_line, directives_lines dialect hplain,
    directives_append_line, directives_append_line, directives_empty,
    directives_mark dialect (by simpa using hname), directives_mark dialect (by simpa using hname),
    directives_mark dialect (by decide)]
  simp [String.append_assoc]

/-- Each name of a table has one constant, which is one directive. -/
structure Draft.IsTable (d : Draft) : Prop where
  holds : ∃ constants, d.Holds constants
  plain : ∀ c ∈ d.constants, IsPlain c

theorem Draft.IsTable.mem_constants_iff {d : Draft} (h : d.IsTable) (c : Constant) :
    c ∈ d.constants ↔ d.valueOf? c.1 = some c.2 := by
  obtain ⟨constants, hholds⟩ := h.holds
  rw [hholds.constants_eq, hholds.valueOf?_eq, mem_firsts_iff]

/-- The comments of a draft in the order in which they were written. -/
def Draft.blocks (d : Draft) : List String := d.lines.reverse.filterMap Line.block?

/-- A header is exact unless a comment hides a directive or a constant is called as the
guard is. -/
theorem isExact_render_iff (file : Path) {d : Draft} (h : d.IsTable) :
    IsExact dialect file d.constants (render dialect file d.lines.reverse) ↔
      (∀ path ∈ d.blocks, ¬ HidesDirective dialect path) ∧
        guardName file ∉ d.constants.map Prod.fst := by
  have hguard := isMacro_guardName file
  have hnames : (d.constants.map Prod.fst).Nodup := by
    obtain ⟨constants, hholds⟩ := h.holds
    rw [hholds.constants_eq]
    exact nodup_names_firsts constants
  have hdirectives : directives dialect (render dialect file d.lines.reverse) =
      guarded dialect file d.constants ↔ ∀ path ∈ d.blocks, ¬ HidesDirective dialect path := by
    rw [directives_render dialect file h.plain, guarded, List.append_left_inj,
      List.append_right_inj]
    exact flatMap_directives_eq_iff dialect d.lines.reverse
  have hdefined := filterMap_guarded dialect file hguard h.plain
  constructor
  · intro hexact
    refine ⟨hdirectives.1 hexact.directives_eq, ?_⟩
    have hnodup := hexact.nodup
    rw [hexact.directives_eq, hdefined, List.nodup_cons] at hnodup
    exact hnodup.1
  · rintro ⟨hhidden, hfree⟩
    have heq := hdirectives.2 hhidden
    refine ⟨heq, ?_, ?_⟩
    · rw [heq, hdefined, List.forall_mem_cons]
      refine ⟨hguard, fun name hname => ?_⟩
      obtain ⟨c, hc, rfl⟩ := List.mem_map.1 hname
      exact (h.plain c hc).isMacro
    · rw [heq, hdefined, List.nodup_cons]
      exact ⟨hfree, hnames⟩

end RegisterMap.Header
