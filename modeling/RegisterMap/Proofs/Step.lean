import Mathlib.Tactic.Common
import RegisterMap.Walk.Emitter

/-!
What a step of an export does to its session. A step either yields a value and
leaves a session, or stops for a reason. Each elementary step has one lemma that
says exactly when it yields, so that a run is taken apart step by step.
-/

namespace RegisterMap.ExportM

variable {σ α β : Type}

/-- How a step ends that is taken in a session, and the session it leaves. -/
def outcome (step : ExportM σ α) (s : Session σ) : Except Stop α × Session σ := step.run.run s

def Yields (step : ExportM σ α) (s : Session σ) (a : α) (t : Session σ) : Prop :=
  outcome step s = (.ok a, t)

def Stops (step : ExportM σ α) (s : Session σ) (reason : Stop) : Prop :=
  (outcome step s).1 = .error reason

theorem outcome_bind (step : ExportM σ α) (next : α → ExportM σ β) (s : Session σ) :
    outcome (step >>= next) s =
      match outcome step s with
      | (.ok a, t) => outcome (next a) t
      | (.error reason, t) => (.error reason, t) := by
  unfold outcome
  rw [ExceptT.run_bind, StateT.run_bind]
  change (fun p => _) (outcome step s) = _
  rcases h : outcome step s with ⟨reason | a, t⟩
  · change outcome step s = _ at h
    simp only [outcome] at h
    rw [h]
    rfl
  · simp only [outcome] at h
    rw [h]
    rfl

theorem yields_bind {step : ExportM σ α} {next : α → ExportM σ β} {s u : Session σ} {b : β} :
    Yields (step >>= next) s b u ↔ ∃ a t, Yields step s a t ∧ Yields (next a) t b u := by
  unfold Yields
  rw [outcome_bind]
  rcases outcome step s with ⟨reason | a, t⟩
  · simp
  · simp only [Prod.mk.injEq, Except.ok.injEq]
    constructor
    · intro h
      exact ⟨a, t, ⟨rfl, rfl⟩, h⟩
    · rintro ⟨_, _, ⟨rfl, rfl⟩, h⟩
      exact h

theorem stops_bind {step : ExportM σ α} {next : α → ExportM σ β} {s : Session σ} {reason : Stop} :
    Stops (step >>= next) s reason ↔
      Stops step s reason ∨ ∃ a t, Yields step s a t ∧ Stops (next a) t reason := by
  unfold Stops Yields
  rw [outcome_bind]
  rcases outcome step s with ⟨reason' | a, t⟩
  · simp
  · simp only [Prod.mk.injEq, Except.ok.injEq, reduceCtorEq, false_or]
    constructor
    · intro h
      exact ⟨a, t, ⟨rfl, rfl⟩, h⟩
    · rintro ⟨_, _, ⟨rfl, rfl⟩, h⟩
      exact h

/-! Elementary steps. -/

@[simp]
theorem yields_pure {a b : α} {s t : Session σ} : Yields (pure a) s b t ↔ a = b ∧ s = t := by
  change (Except.ok a, s) = (Except.ok b, t) ↔ _
  simp

theorem yields_map {step : ExportM σ α} {f : α → β} {s t : Session σ} {b : β} :
    Yields (f <$> step) s b t ↔ ∃ a, Yields step s a t ∧ f a = b := by
  rw [map_eq_pure_bind, yields_bind]
  constructor
  · rintro ⟨a, u, hstep, hpure⟩
    obtain ⟨hb, rfl⟩ := yields_pure.1 hpure
    exact ⟨a, hstep, hb⟩
  · rintro ⟨a, hstep, hb⟩
    exact ⟨a, t, hstep, yields_pure.2 ⟨hb, rfl⟩⟩

@[simp]
theorem not_stops_pure {a : α} {s : Session σ} {reason : Stop} : ¬ Stops (pure a) s reason := by
  change ¬ Except.ok a = Except.error reason
  simp

@[simp]
theorem not_yields_stop {reason : Stop} {s t : Session σ} {a : α} :
    ¬ Yields (stop reason) s a t := by
  change ¬ (Except.error reason, s) = (Except.ok a, t)
  simp

@[simp]
theorem stops_stop {given reason : Stop} {s : Session σ} :
    Stops (stop given : ExportM σ α) s reason ↔ given = reason := by
  change Except.error given = Except.error reason ↔ _
  simp

@[simp]
theorem not_yields_fail {e : ExportError} {s t : Session σ} {a : α} :
    ¬ Yields (fail e) s a t :=
  not_yields_stop

@[simp]
theorem yields_checked {o : Option α} {s t : Session σ} {a : α} :
    Yields (checked o) s a t ↔ o = some a ∧ s = t := by
  cases o <;> simp [checked]

@[simp]
theorem stops_checked {o : Option α} {s : Session σ} {reason : Stop} :
    Stops (checked o) s reason ↔ o = none ∧ reason = .overflow := by
  cases o <;> simp [checked, eq_comm]

/-- A step that only changes the session. -/
theorem yields_modify {f : Session σ → Session σ} {s t : Session σ} {u : Unit} :
    Yields (modify f : ExportM σ Unit) s u t ↔ f s = t := by
  change (Except.ok (), f s) = (Except.ok u, t) ↔ _
  simp

theorem not_stops_modify {f : Session σ → Session σ} {s : Session σ} {reason : Stop} :
    ¬ Stops (modify f : ExportM σ Unit) s reason := by
  change ¬ Except.ok () = Except.error reason
  simp

@[simp]
theorem yields_build {f : σ → σ} {s t : Session σ} {u : Unit} :
    Yields (build f) s u t ↔ { s with state := f s.state } = t :=
  yields_modify

@[simp]
theorem yields_built {s t : Session σ} {a : σ} : Yields built s a t ↔ s.state = a ∧ s = t := by
  change (Except.ok s.state, s) = (Except.ok a, t) ↔ _
  simp

@[simp]
theorem not_stops_built {s : Session σ} {reason : Stop} :
    ¬ Stops (built : ExportM σ σ) s reason := by
  change ¬ Except.ok s.state = Except.error reason
  simp

@[simp]
theorem yields_debug {text : String} {s t : Session σ} {u : Unit} :
    Yields (debug text) s u t ↔ s.emit .debug text = t :=
  yields_modify

@[simp]
theorem yields_info {text : String} {s t : Session σ} {u : Unit} :
    Yields (info text) s u t ↔ s.emit .info text = t :=
  yields_modify

@[simp]
theorem yields_warn {text : String} {s t : Session σ} {u : Unit} :
    Yields (warn text) s u t ↔ s.warn text = t :=
  yields_modify

@[simp]
theorem yields_resetBusWidth {s t : Session σ} {u : Unit} :
    Yields resetBusWidth s u t ↔ s.resetBusWidth = t :=
  yields_modify

@[simp]
theorem yields_observeBusWidth {width : Nat} {s t : Session σ} {u : Unit} :
    Yields (observeBusWidth width) s u t ↔ s.observeBusWidth width = t :=
  yields_modify

@[simp]
theorem yields_busWidth {s t : Session σ} {width : Option Nat} :
    Yields busWidth s width t ↔ s.busWidth = width ∧ s = t := by
  change (Except.ok s.busWidth, s) = (Except.ok width, t) ↔ _
  simp

@[simp]
theorem not_stops_busWidth {s : Session σ} {reason : Stop} :
    ¬ Stops (busWidth : ExportM σ (Option Nat)) s reason := by
  change ¬ Except.ok s.busWidth = Except.error reason
  simp

@[simp]
theorem yields_takeId {s t : Session σ} {id : Nat} :
    Yields takeId s id t ↔ s.nextId = id ∧ { s with nextId := s.nextId + 1 } = t := by
  change (Except.ok s.nextId, { s with nextId := s.nextId + 1 }) = (Except.ok id, t) ↔ _
  simp

@[simp]
theorem not_stops_takeId {s : Session σ} {reason : Stop} :
    ¬ Stops (takeId : ExportM σ Nat) s reason := by
  change ¬ Except.ok s.nextId = Except.error reason
  simp

end RegisterMap.ExportM
