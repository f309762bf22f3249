import Mathlib.Tactic.Common
import RegisterMap.Header.Draft

/-!
Constants where the first value of a name stays. A list of constants, in which a
name may come many times, has a table with the first constant of each name, and
as many conflicts as constants that differ from the first of their name. A draft
that has been given such a list one by one holds just its table.
-/

namespace RegisterMap.Header

/-- A name and the text of its value. -/
abbrev Constant := String × String

/-- The first constant of each name, in order. -/
def firsts : List Constant → List Constant
  | [] => []
  | c :: rest => c :: (firsts rest).filter fun d => d.1 ≠ c.1

/-- How many constants have another value than the first one of their name. -/
def conflicts (constants : List Constant) : Nat :=
  constants.countP fun c => constants.lookup c.1 ≠ some c.2

theorem mem_of_mem_firsts {c : Constant} {constants : List Constant} (h : c ∈ firsts constants) :
    c ∈ constants := by
  induction constants with
  | nil => simp [firsts] at h
  | cons d rest ih =>
    rw [firsts] at h
    rcases List.mem_cons.1 h with rfl | hrest
    · exact List.mem_cons_self
    · exact List.mem_cons_of_mem d (ih (List.mem_filter.1 hrest).1)

theorem mem_firsts_iff {c : Constant} {constants : List Constant} :
    c ∈ firsts constants ↔ constants.lookup c.1 = some c.2 := by
  induction constants with
  | nil => simp [firsts]
  | cons d rest ih =>
    rw [firsts, List.mem_cons, List.mem_filter, ih, List.lookup_cons]
    by_cases hname : c.1 = d.1
    · simp only [hname, beq_self_eq_true, Option.some.injEq, ne_eq, not_true_eq_false,
        decide_false, Bool.false_eq_true, and_false, or_false]
      constructor
      · intro h
        rw [h]
      · intro h
        exact Prod.ext hname h.symm
    · have hne : (c.1 == d.1) = false := beq_eq_false_iff_ne.2 hname
      have hcd : c ≠ d := fun h => hname (congrArg Prod.fst h)
      simp [hne, hcd, hname]

/-- A table has each name once. -/
theorem nodup_names_firsts (constants : List Constant) :
    ((firsts constants).map Prod.fst).Nodup := by
  induction constants with
  | nil => simp [firsts]
  | cons d rest ih =>
    rw [firsts, List.map_cons, List.nodup_cons]
    constructor
    · simp
    · exact (List.filter_sublist.map Prod.fst).nodup ih

/-- Without conflicts every constant has its own value in the table. -/
theorem mem_firsts_of_conflicts_eq_zero {constants : List Constant} (h : conflicts constants = 0)
    {c : Constant} (hc : c ∈ constants) : c ∈ firsts constants := by
  have hnone := List.countP_eq_zero.1 h c hc
  rw [mem_firsts_iff]
  simpa using hnone

/-! One more constant. -/

theorem firsts_append_singleton (constants : List Constant) (c : Constant) :
    firsts (constants ++ [c]) =
      if (constants.lookup c.1).isSome then firsts constants else firsts constants ++ [c] := by
  induction constants with
  | nil => simp [firsts]
  | cons d rest ih =>
    rw [List.cons_append, firsts, ih, firsts, List.lookup_cons]
    by_cases hname : c.1 = d.1
    · simp only [hname, beq_self_eq_true, Option.isSome_some, if_true]
      split
      · rfl
      · simp [List.filter_append, hname]
    · have hne : (c.1 == d.1) = false := beq_eq_false_iff_ne.2 hname
      simp only [hne]
      split
      · rfl
      · simp [List.filter_append, hname]

theorem lookup_append_of_mem {constants : List Constant} {c : Constant} (hc : c ∈ constants)
    (later : List Constant) : (constants ++ later).lookup c.1 = constants.lookup c.1 := by
  rw [List.lookup_append]
  have hsome : (constants.lookup c.1).isSome := by
    rw [List.lookup_isSome_iff]
    exact ⟨c, hc, beq_self_eq_true c.1⟩
  obtain ⟨value, hvalue⟩ := Option.isSome_iff_exists.1 hsome
  rw [hvalue, Option.some_or]

theorem conflicts_append_singleton (constants : List Constant) (c : Constant) :
    conflicts (constants ++ [c]) =
      conflicts constants + if ((constants ++ [c]).lookup c.1) = some c.2 then 0 else 1 := by
  unfold conflicts
  rw [List.countP_append, List.countP_singleton]
  congr 1
  · apply List.countP_congr
    intro d hd
    rw [lookup_append_of_mem hd]
  · by_cases h : (constants ++ [c]).lookup c.1 = some c.2 <;> simp [h]

/-! The draft of a table. -/

/-- The constant that a line defines. -/
def Line.constant? : Line → Option Constant
  | .constant name value => some (name, value)
  | .block _ => none

/-- The constants of a draft in the order in which they were defined. -/
def Draft.constants (d : Draft) : List Constant := d.lines.reverse.filterMap Line.constant?

@[simp]
theorem Draft.constants_addBlock (d : Draft) (path : String) :
    (d.addBlock path).constants = d.constants := by
  simp [Draft.constants, Draft.addBlock, Line.constant?]

@[simp]
theorem Draft.constants_addConstant (d : Draft) (name value : String) :
    (d.addConstant name value).constants = d.constants ++ [(name, value)] := by
  simp [Draft.constants, Draft.addConstant, Line.constant?]

theorem Draft.valueOf?_addConstant (d : Draft) (name value other : String) :
    (d.addConstant name value).valueOf? other =
      if name = other then some value else d.valueOf? other := by
  rw [Draft.valueOf?_eq, Draft.valueOf?_eq]
  by_cases h : name = other <;> simp [Draft.addConstant, Header.valueOf?, h]

/-- A draft that has been given a list of constants. -/
structure Draft.Holds (d : Draft) (constants : List Constant) : Prop where
  constants_eq : d.constants = firsts constants
  valueOf?_eq : ∀ name, d.valueOf? name = constants.lookup name

theorem Draft.holds_empty : Draft.empty.Holds [] := by
  refine ⟨rfl, ?_⟩
  intro name
  rw [Draft.valueOf?_eq]
  rfl

theorem Draft.Holds.addBlock {d : Draft} {constants : List Constant} (h : d.Holds constants)
    (path : String) : (d.addBlock path).Holds constants :=
  ⟨(d.constants_addBlock path).trans h.constants_eq, h.valueOf?_eq⟩

/-- A constant with a new name joins the draft. -/
theorem Draft.Holds.addConstant {d : Draft} {constants : List Constant} (h : d.Holds constants)
    {name : String} (hnew : constants.lookup name = none) (value : String) :
    (d.addConstant name value).Holds (constants ++ [(name, value)]) := by
  constructor
  · rw [constants_addConstant, h.constants_eq, firsts_append_singleton, hnew]
    rfl
  · intro other
    rw [valueOf?_addConstant, h.valueOf?_eq, List.lookup_append]
    by_cases heq : name = other
    · subst heq
      simp [hnew]
    · have hne : (other == name) = false := beq_eq_false_iff_ne.2 fun h => heq h.symm
      simp [heq, List.lookup_cons, hne]

/-- A constant whose name is known leaves the draft as it is. -/
theorem Draft.Holds.keep {d : Draft} {constants : List Constant} (h : d.Holds constants)
    {name first : String} (hknown : constants.lookup name = some first) (value : String) :
    d.Holds (constants ++ [(name, value)]) := by
  constructor
  · rw [h.constants_eq, firsts_append_singleton, hknown]
    rfl
  · intro other
    rw [h.valueOf?_eq, List.lookup_append]
    by_cases heq : other = name
    · subst heq
      simp [hknown]
    · have hne : (other == name) = false := beq_eq_false_iff_ne.2 heq
      simp [List.lookup_cons, hne]

end RegisterMap.Header
