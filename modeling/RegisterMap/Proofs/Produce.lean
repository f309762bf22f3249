import Mathlib.Tactic.Common
import RegisterMap.Proofs.Walk
import RegisterMap.Walk.Export

/-!
A whole export taken apart: the top is checked, and then the emitter starts, walks
and finishes. What is written afterwards reports the warnings of the walk.
-/

namespace RegisterMap.Emitter

open ExportM

variable {σ : Type} (em : Emitter σ)

/-- What the emitter is told about a map. -/
def context (top : Node) (destination : Path) : Context :=
  { top, destination, explosion := em.explosion top }

/-- The session of an export when its emitter starts. -/
def opening (top : Node) (destination : Path) : Session σ :=
  Session.emit { state := em.initial } .debug
    ("exporting '" ++ top.name ++ "' to " ++ destination.text ++ " (" ++
      (em.explosion top).title ++ ")")

/-- What follows the check of the top. -/
def steps (top : Node) (destination : Path) : ExportM σ Artifact := do
  em.start (em.context top destination)
  em.visitTop (.top top) (em.explosion top)
  em.finish (em.context top destination)

theorem yields_checkTop {top : Node} {s t : Session σ} {u : Unit} :
    Yields (checkTop top) s u t ↔
      (top.kind.canBeTop = true ∧ top.validate = .ok ()) ∧ s = t := by
  unfold checkTop
  by_cases hkind : top.kind.canBeTop = true
  · cases hvalid : top.validate with
    | error e => simp [hkind]
    | ok _ => simp [hkind]
  · simp [hkind, yields_bind]

theorem outcome_of_yields {step : ExportM σ α} {next : α → ExportM σ β} {s t : Session σ} {a : α}
    (h : Yields step s a t) : outcome (step >>= next) s = outcome (next a) t := by
  unfold Yields at h
  rw [outcome_bind, h]

/-- The export of a top that passes its check. -/
theorem produce_eq {top : Node} (hkind : top.kind.canBeTop = true)
    (hvalid : top.validate = .ok ()) (destination : Path) :
    em.produce top destination =
      outcome (em.steps top destination) (em.opening top destination) := by
  have hcheck : Yields (checkTop top) { state := em.initial } () { state := em.initial } :=
    yields_checkTop.2 ⟨⟨hkind, hvalid⟩, rfl⟩
  have hdebug : Yields (debug ("exporting '" ++ top.name ++ "' to " ++ destination.text ++ " (" ++
      (em.explosion top).title ++ ")")) { state := em.initial } () (em.opening top destination) :=
    yields_debug.2 rfl
  exact (outcome_of_yields hcheck).trans (outcome_of_yields hdebug)

/-- An artifact comes from a valid top, and from the steps after its check. -/
theorem produce_eq_ok_iff {top : Node} {destination : Path} {a : Artifact}
    {s : Session σ} :
    em.produce top destination = (.ok a, s) ↔
      (top.kind.canBeTop = true ∧ top.validate = .ok ()) ∧
        Yields (em.steps top destination) (em.opening top destination) a s := by
  change Yields (em.artifact top destination) { state := em.initial } a s ↔ _
  unfold artifact
  rw [yields_bind]
  constructor
  · rintro ⟨_, _, hcheck, hrest⟩
    obtain ⟨hvalid, rfl⟩ := yields_checkTop.1 hcheck
    obtain ⟨_, _, hdebug, hsteps⟩ := yields_bind.1 hrest
    obtain rfl := yields_debug.1 hdebug
    exact ⟨hvalid, hsteps⟩
  · rintro ⟨hvalid, hsteps⟩
    exact ⟨(), _, yields_checkTop.2 ⟨hvalid, rfl⟩,
      yields_bind.2 ⟨(), _, yields_debug.2 rfl, hsteps⟩⟩

/-- An export that is not stopped comes to an artifact. -/
theorem exists_produce_eq_ok {top : Node} {destination : Path}
    (h : (em.produce top destination).1.isOk = true) :
    ∃ a s, em.produce top destination = (.ok a, s) ∧ (em.produce top destination).2 = s := by
  rcases hproduce : em.produce top destination with ⟨reason | a, s⟩
  · rw [hproduce] at h
    cases h
  · exact ⟨a, s, rfl, rfl⟩

/-- A report has the warnings of the session that made the artifact. -/
theorem warnings_run {m : Type → Type} [Monad m] [LawfulMonad m] (fs : FileSystem m) {top : Node}
    {destination : Path} {a : Artifact} {s : Session σ}
    (h : em.produce top destination = (.ok a, s)) :
    (fun result => result.1.map Report.warnings) <$> em.run fs top destination =
      (fun written => (written.map fun _ => s.warnings).mapError Stop.failed) <$>
        fs.writeArtifact destination a := by
  unfold run
  rw [h]
  simp only [map_eq_pure_bind, bind_assoc]
  congr 1
  funext written
  cases written with
  | error e => simp [Except.map, Except.mapError]
  | ok files => simp [Except.map, Except.mapError]

end RegisterMap.Emitter
