import RegisterMap.Proofs.AddressSpace
import RegisterMap.Proofs.Invariants

/-!
Validation is one check after another: every node of a map is checked for itself, in
pre-order and by its path. So a map is valid exactly if each of its nodes keeps the
invariants, and else the error tells a fault of the first node that does not.
-/

namespace RegisterMap

namespace Node

mutual

/-- A node at a path and all nodes below it with their paths, in pre-order. -/
def located (path : String) : Node → List (String × Node)
  | n@{ children, .. } => (path, n) :: locatedAll path children

def locatedAll (path : String) : List Node → List (String × Node)
  | [] => []
  | child :: rest => child.located (childPath path child.name) ++ locatedAll path rest

end

theorem located_eq (path : String) (n : Node) :
    n.located path = (path, n) :: locatedAll path n.children := by
  cases n
  rw [located]

theorem locatedAll_eq (path : String) (nodes : List Node) :
    locatedAll path nodes = nodes.flatMap fun c => c.located (childPath path c.name) := by
  induction nodes with
  | nil => rfl
  | cons child rest ih => rw [locatedAll, ih, List.flatMap_cons]

theorem map_snd_located (path : String) (n : Node) :
    (n.located path).map (·.2) = n.subtree := by
  induction n using Node.induction generalizing path with
  | step n ih =>
    rw [located_eq, locatedAll_eq, subtree_eq, List.map_cons, List.map_flatMap]
    exact congrArg (n :: ·) (List.flatMap_congr fun c hc => ih c hc _)

theorem validateAll_eq (path : String) (nodes : List Node) :
    validateAll path nodes = forM nodes fun c => c.validateAt (childPath path c.name) := by
  induction nodes with
  | nil => rfl
  | cons child rest ih => rw [validateAll, ih, List.forM_cons]

/-- A container is checked before its children. Below a register or a memory that passes its
check there is nothing to check. -/
theorem validateAt_eq_alone (path : String) (n : Node) :
    n.validateAt path = (do
      n.checkAlone path
      validateAll path n.children) := by
  have hchildless (hsound : n.IsSound) (hkind : n.kind = .reg ∨ n.kind = .mem) :
      n.children = [] := by
    have hofKind := hsound.ofKind
    unfold IsSoundKind at hofKind
    rcases hkind with hkind | hkind
    · rw [hkind] at hofKind
      exact hofKind.children
    · rw [hkind] at hofKind
      exact hofKind.children
  have hlast (check : Except ModelError Unit) (h : check = .ok () → n.children = []) :
      check = (do check; validateAll path n.children) := by
    cases check with
    | error e => rfl
    | ok _ => rw [h rfl]; rfl
  have halone := n.judges_checkAlone path
  rw [validateAt_eq]
  unfold checkAlone at halone ⊢
  rw [bind_assoc]
  cases harray : n.checkArray path with
  | error e => rfl
  | ok _ =>
    rw [harray] at halone
    cases hkind : n.kind with
    | reg =>
      rw [hkind] at halone
      exact hlast _ fun h => hchildless (halone.ok_iff.1 h) (Or.inl hkind)
    | mem =>
      rw [hkind] at halone
      exact hlast _ fun h => hchildless (halone.ok_iff.1 h) (Or.inr hkind)
    | addrmap => rfl
    | regfile => rfl

/-- Validation checks each node for itself, in pre-order. -/
theorem validateAt_eq_forM (path : String) (n : Node) :
    n.validateAt path = forM (n.located path) fun place => place.2.checkAlone place.1 := by
  induction n using Node.induction generalizing path with
  | step n ih =>
    rw [validateAt_eq_alone, located_eq, List.forM_cons, locatedAll_eq, forM_flatMap,
      validateAll_eq]
    exact bind_congr fun _ => forM_congr fun c hc => ih c hc _

/-- A map passes validation exactly if every node of it keeps the invariants. Else the error
tells a fault of the first node in pre-order that does not: it names the path of that node,
followed by the name of the field for a fault of a field, and an overlap that it tells is one
of two fields. -/
theorem validate_tells_first_fault (n : Node) :
    (n.validate = .ok () ↔ ∀ m ∈ n.subtree, m.IsSound) ∧
      ∀ e, n.validate = .error e →
        ∃ before path m after, n.located n.name = before ++ (path, m) :: after ∧
          (∀ place ∈ before, place.2.IsSound) ∧ ¬ m.IsSound ∧ m.Fault path e := by
  unfold validate
  rw [validateAt_eq_forM]
  constructor
  · rw [Except.forM_eq_ok_iff, ← map_snd_located n.name, List.forall_mem_map]
    exact forall₂_congr fun place _ => (place.2.judges_checkAlone place.1).ok_iff
  · intro e he
    obtain ⟨before, ⟨path, m⟩, after, hplaces, hbefore, hm⟩ := Except.forM_eq_error_iff.1 he
    have hjudge := m.judges_checkAlone path
    refine ⟨before, path, m, after, hplaces, fun place hplace => ?_, fun hsound => ?_,
      hjudge.of_error e hm⟩
    · exact (place.2.judges_checkAlone place.1).ok_iff.1 (hbefore place hplace)
    · cases hm.symm.trans (hjudge.ok_iff.2 hsound)

end Node

/-- Two fields that meet in bit 4, and behind them an array without dimensions. -/
def meetingFields : Node :=
  { name := "chip", kind := .addrmap, children := [
    { name := "bank", kind := .regfile, children := [
      { name := "ctrl", kind := .reg, fields := [⟨"high", 4, 7, {}⟩, ⟨"low", 0, 4, {}⟩] }] },
    { name := "rows", kind := .regfile, array := some ⟨[], 4⟩ }] }

theorem meetingFields_tells_first_fault :
    meetingFields.validate = .error (.fieldOverlap "chip.bank.ctrl" "low" "high") ∧
      ∃ before path m after,
        meetingFields.located meetingFields.name = before ++ (path, m) :: after ∧
          (∀ place ∈ before, place.2.IsSound) ∧ ¬ m.IsSound ∧
            m.Fault path (.fieldOverlap "chip.bank.ctrl" "low" "high") := by
  let bank := meetingFields.children[0]
  let ctrl := bank.children[0]
  have hsort : sortFields ctrl.fields = [⟨"low", 0, 4, {}⟩, ⟨"high", 4, 7, {}⟩] := by
    simp [ctrl, bank, meetingFields, sortFields, List.mergeSort]
  have hctrl : ctrl.validateAt "chip.bank.ctrl" =
      .error (.fieldOverlap "chip.bank.ctrl" "low" "high") := by
    calc ctrl.validateAt "chip.bank.ctrl"
      _ = checkOverlap "chip.bank.ctrl" ctrl.fields := rfl
      _ = .error (.fieldOverlap "chip.bank.ctrl" "low" "high") := by rw [checkOverlap, hsort]; rfl
  have hbank : bank.validateAt "chip.bank" =
      .error (.fieldOverlap "chip.bank.ctrl" "low" "high") :=
    congrArg (· >>= fun _ => Except.ok ()) hctrl
  have herror : meetingFields.validate = .error (.fieldOverlap "chip.bank.ctrl" "low" "high") :=
    congrArg (· >>= fun _ => Node.validateAll "chip" [meetingFields.children[1]]) hbank
  exact ⟨herror, meetingFields.validate_tells_first_fault.2 _ herror⟩

end RegisterMap
