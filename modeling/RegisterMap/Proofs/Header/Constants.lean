import RegisterMap.Header.Emitter
import RegisterMap.Proofs.Header.Table
import RegisterMap.Proofs.Occurrence
import RegisterMap.Proofs.Valid

/-!
The constants that a map asks for, element by element in the order of the walk,
before any name is looked up; and what the steps of the emitter add to a draft. A
step adds a list of constants when it leaves the draft with the table of all
constants asked for so far, and the warnings at their conflicts. Where a value is
no word there is no list, and the step overflows.
-/

namespace RegisterMap

namespace Occurrence

/-- The element that an element is met in, none for an address block. -/
def owner? (explosion : Explosion) (o : Occurrence) : Option Element :=
  if o.isBlock explosion then none else o.above.head?

end Occurrence

namespace Header

open ExportM

/-- The macro name of an element: the one it lies in goes in front, if there is one. -/
def constantName (explosion : Explosion) (o : Occurrence) : String :=
  Identifier.macroName (((o.owner? explosion).map (·.ident)).toList ++ [o.element.ident])

/-- The place and the mask of a field. -/
def fieldConstants? (register : Node) (f : Field) : Option (List Constant) :=
  f.mask?.map fun mask =>
    [(Identifier.macroName [register.name, f.name, "OFFSET"], toString f.lsb),
      (Identifier.macroName [register.name, f.name, "MASK"], Text.hex mask)]

/-- The base and the size of a memory. -/
def memoryConstants? (name : String) (e : Element) : Option (List Constant) :=
  e.node.size?.map fun size =>
    [(name ++ "_BASE", Text.hex e.address), (name ++ "_SIZE", Text.hex size)]

/-- The address of a register and the constants of its fields. -/
def registerConstants? (options : WalkOptions) (name : String) (e : Element) :
    Option (List Constant) :=
  (((e.node.metFields options).mapM (fieldConstants? e.node)).map List.flatten).map fun fields =>
    (name, Text.hex e.address) :: fields

/-- The constants of an occurrence. -/
def constants? (options : WalkOptions) (explosion : Explosion) (o : Occurrence) :
    Option (List Constant) :=
  match o.element.node.kind with
  | .addrmap | .regfile => some []
  | .reg => registerConstants? options (constantName explosion o) o.element
  | .mem => memoryConstants? (constantName explosion o) o.element

/-- A header meets every element of an array by itself. -/
def walkOptions (options : HeaderOptions) : WalkOptions :=
  { skipAbsent := options.skipAbsent, unroll := true }

/-- All constants of a map in the order of the walk, if every value is a word. -/
def allConstants? (options : HeaderOptions) (top : Node) : Option (List Constant) :=
  ((Occurrence.all (walkOptions options) top).mapM
    (constants? (walkOptions options) (.decide top))).map List.flatten

/-! Steps that add constants. -/

/-- A session whose draft has been given a list of constants, each conflict told by a
warning. -/
structure Records (s : Session Draft) (constants : List Constant) : Prop where
  holds : s.state.Holds constants
  warnings_eq : s.warnings = conflicts constants

/-- What a step does that is asked for some constants, which may have a value that is
no word. -/
def Adds (step : HeaderM Unit) (added : Option (List Constant)) : Prop :=
  ∀ s constants, Records s constants →
    match added with
    | some new => ∃ t, Yields step s () t ∧ Records t (constants ++ new)
    | none => Stops step s .overflow

theorem adds_pure : Adds (pure ()) (some []) := by
  intro s constants h
  exact ⟨s, by simp, by simpa using h⟩

theorem Adds.andThen {first second : HeaderM Unit} {a b : Option (List Constant)}
    (hfirst : Adds first a) (hsecond : Adds second b) :
    Adds (first >>= fun _ => second) (a.bind fun x => b.map fun y => x ++ y) := by
  intro s constants h
  have hstep := hfirst s constants h
  cases a with
  | none => exact stops_bind.2 (Or.inl hstep)
  | some x =>
    obtain ⟨t, hyields, hrecords⟩ := hstep
    have hrest := hsecond t (constants ++ x) hrecords
    cases b with
    | none => exact stops_bind.2 (Or.inr ⟨(), t, hyields, hrest⟩)
    | some y =>
      obtain ⟨u, hyields', hrecords'⟩ := hrest
      exact ⟨u, yields_bind.2 ⟨(), t, hyields, hyields'⟩,
        by simpa only [List.append_assoc] using hrecords'⟩

/-- A step that leaves the draft and the warnings alone adds nothing. -/
theorem adds_of_frame {step : HeaderM α} {next : HeaderM Unit} {added : Option (List Constant)}
    (hframe : ∀ s, ∃ a t, Yields step s a t ∧ t.state = s.state ∧ t.warnings = s.warnings)
    (hnext : Adds next added) : Adds (step >>= fun _ => next) added := by
  intro s constants h
  obtain ⟨a, t, hyields, hstate, hwarnings⟩ := hframe s
  have hrecords : Records t constants := ⟨hstate ▸ h.holds, hwarnings ▸ h.warnings_eq⟩
  have hrest := hnext t constants hrecords
  cases added with
  | none => exact stops_bind.2 (Or.inr ⟨a, t, hyields, hrest⟩)
  | some new =>
    obtain ⟨u, hyields', hrecords'⟩ := hrest
    exact ⟨u, yields_bind.2 ⟨a, t, hyields, hyields'⟩, hrecords'⟩

/-- A value that a step needs is there, or the step overflows. -/
theorem adds_checked {o : Option α} {next : α → HeaderM Unit} {added : α → List Constant}
    (hnext : ∀ a, Adds (next a) (some (added a))) :
    Adds (checked o >>= next) (o.map added) := by
  intro s constants h
  cases o with
  | none => exact stops_bind.2 (Or.inl (stops_checked.2 ⟨rfl, rfl⟩))
  | some a =>
    obtain ⟨t, hyields, hrecords⟩ := hnext a s constants h
    exact ⟨t, yields_bind.2 ⟨a, s, yields_checked.2 ⟨rfl, rfl⟩, hyields⟩, hrecords⟩

theorem adds_forM {items : List α} {step : α → HeaderM Unit}
    {added : α → Option (List Constant)} (hstep : ∀ a ∈ items, Adds (step a) (added a)) :
    Adds (forM items step) ((items.mapM added).map List.flatten) := by
  induction items with
  | nil => exact adds_pure
  | cons item rest ih =>
    have hfirst := hstep item List.mem_cons_self
    have hrest := ih fun a ha => hstep a (List.mem_cons_of_mem item ha)
    have hboth := hfirst.andThen hrest
    rw [List.forM_cons, List.mapM_cons]
    cases hitem : added item with
    | none => simpa [hitem] using hboth
    | some x =>
      cases hothers : rest.mapM added with
      | none => simpa [hitem, hothers] using hboth
      | some y => simpa [hitem, hothers] using hboth

/-- A name that is known keeps its first value; another one is warned about. -/
theorem adds_define (path name value : String) :
    Adds (define path name value) (some [(name, value)]) := by
  intro s constants h
  have hvalue := h.holds.valueOf?_eq name
  have hconflicts := conflicts_append_singleton constants (name, value)
  simp only [List.lookup_append] at hconflicts
  cases hknown : constants.lookup name with
  | none =>
    refine ⟨{ s with state := s.state.addConstant name value }, ?_, ?_⟩
    · rw [define, yields_bind]
      refine ⟨s.state, s, by simp, ?_⟩
      rw [hvalue, hknown]
      exact yields_build.2 rfl
    · refine ⟨h.holds.addConstant hknown value, ?_⟩
      rw [hconflicts]
      simpa [hknown] using h.warnings_eq
  | some first =>
    by_cases hsame : first = value
    · refine ⟨s, ?_, h.holds.keep hknown value, ?_⟩
      · rw [define, yields_bind]
        refine ⟨s.state, s, by simp, ?_⟩
        rw [hvalue, hknown]
        simp [hsame]
      · rw [hconflicts]
        simpa [hknown, hsame] using h.warnings_eq
    · refine ⟨s.warn (path ++ ": '" ++ name ++ "' already defined as " ++ first ++
        ", keeping it instead of " ++ value), ?_, h.holds.keep hknown value, ?_⟩
      · rw [define, yields_bind]
        refine ⟨s.state, s, by simp, ?_⟩
        rw [hvalue, hknown]
        simp [hsame]
      · rw [hconflicts]
        simpa [hknown, hsame, Session.warn] using h.warnings_eq

theorem adds_defineField (f : Field) (register : Element) :
    Adds (defineField f register) (fieldConstants? register.node f) := by
  apply adds_checked
  intro mask
  exact (adds_define _ _ _).andThen (adds_define _ _ _)

theorem adds_defineMemory (e : Element) (name : String) :
    Adds (defineMemory e name) (memoryConstants? name e) := by
  apply adds_checked
  intro size
  exact (adds_define _ _ _).andThen (adds_define _ _ _)

end Header

end RegisterMap
