import Mathlib.Tactic.Common
import RegisterMap.Storage.Write

/-!
How writing an artifact can fail: only where a step of the file system does, and the
failure names the path of that step.
-/

namespace RegisterMap

namespace FileSystem

variable {World α : Type} (fs : FileSystem (StateM World))

/-- Steps with something staged that is cleared away after them. -/
def discarding (steps : Path → ExceptT ExportError (StateM World) α) (staging : Path) :
    ExceptT ExportError (StateM World) α :=
  ExceptT.mk do
    let result ← (steps staging).run
    fs.discard staging
    return result

/-- Staging is a row of steps, of which only the last ones are cleared up after. -/
theorem staged_eq (stage : Path → StateM World (Option Path)) (destination : Path)
    (steps : Path → ExceptT ExportError (StateM World) α) :
    fs.staged stage destination steps = (do
      fs.requireDirectory destination.directory
      let found ← ExceptT.lift (stage destination.directory)
      found.elim (MonadExcept.throw (.io destination.directory)) (fs.discarding steps)) := by
  apply ExceptT.ext
  rw [ExceptT.run_bind]
  refine bind_congr fun made => ?_
  cases made with
  | error e => rfl
  | ok _ =>
    rw [ExceptT.run_bind, ExceptT.run_lift, map_eq_pure_bind, bind_assoc]
    refine bind_congr fun found => ?_
    cases found <;> rfl

end FileSystem

/-- A step of writing that can fail only over some path. -/
def FailsByPath {World α : Type} (step : ExceptT ExportError (StateM World) α) : Prop :=
  ∀ w e, (step.run.run w).1 = .error e → ∃ p, e = .io p

namespace FailsByPath

variable {World α β : Type}

theorem pure (a : α) : FailsByPath (Pure.pure a : ExceptT ExportError (StateM World) α) :=
  fun _ _ h => by cases h

theorem bind {step : ExceptT ExportError (StateM World) α}
    {next : α → ExceptT ExportError (StateM World) β} (h : FailsByPath step)
    (hnext : ∀ a, FailsByPath (next a)) : FailsByPath (step >>= next) := by
  intro w e herror
  rw [ExceptT.run_bind, StateT.run_bind] at herror
  rcases hstep : step.run.run w with ⟨e' | a, w'⟩
  · rw [hstep] at herror
    obtain rfl : e' = e := Except.error.inj herror
    exact h w e' (by rw [hstep])
  · rw [hstep] at herror
    exact hnext a w' e herror

/-- A step that leaves it to the file system to fail. -/
theorem lift (step : StateM World α) :
    FailsByPath (ExceptT.lift step : ExceptT ExportError (StateM World) α) :=
  fun _ _ h => by cases h

theorem throw (p : Path) :
    FailsByPath (MonadExcept.throw (.io p) : ExceptT ExportError (StateM World) α) :=
  fun _ _ h => ⟨p, (Except.error.inj h).symm⟩

variable (fs : FileSystem (StateM World))

theorem require (p : Path) (step : StateM World Bool) :
    FailsByPath (FileSystem.require p step) := by
  unfold FileSystem.require
  refine .bind (lift step) fun done => ?_
  cases done with
  | true => exact .pure ()
  | false => exact throw p

theorem staged (stage : Path → StateM World (Option Path)) (destination : Path)
    {steps : Path → ExceptT ExportError (StateM World) α}
    (h : ∀ staging, FailsByPath (steps staging)) :
    FailsByPath (fs.staged stage destination steps) := by
  rw [fs.staged_eq]
  refine (require _ _).bind fun _ => (lift _).bind fun found => ?_
  cases found with
  | none => exact throw destination.directory
  | some staging => exact fun w e herror => h staging w e herror

theorem requireParent (p : Path) : FailsByPath (fs.requireParent p) := by
  unfold FileSystem.requireParent
  cases p.parent? with
  | none => exact .pure ()
  | some above => exact .require _ _

theorem writeBelow (root : Path) (files : List (Path × ByteArray)) :
    FailsByPath (fs.writeBelow root files) := by
  induction files with
  | nil => exact .pure ()
  | cons file rest ih =>
    exact (requireParent fs _).bind fun _ => (require _ _).bind fun _ => ih

theorem moveBelow (root target : Path) (paths : List Path) :
    FailsByPath (fs.moveBelow root target paths) := by
  induction paths with
  | nil => exact .pure ()
  | cons path rest ih =>
    exact (requireParent fs _).bind fun _ => (require _ _).bind fun _ => ih

theorem writeFile (destination : Path) (content : ByteArray) :
    FailsByPath (fs.writeFile destination content) :=
  staged fs _ _ fun _ => (require _ _).bind fun _ => require _ _

theorem writeTree (destination : Path) (files : FileSet) :
    FailsByPath (fs.writeTree destination files) := by
  refine staged fs _ _ fun staging => (require _ _).bind fun _ =>
    (writeBelow fs _ _).bind fun _ => .bind (lift _) fun present => ?_
  cases present with
  | true => exact moveBelow fs _ _ _
  | false => exact require _ _

end FailsByPath

/-- An artifact is not written only because of the file system. -/
theorem FileSystem.error_of_writeArtifact {World : Type} (fs : FileSystem (StateM World))
    {destination : Path} {a : Artifact} {w : World} {e : ExportError}
    (h : ((fs.writeArtifact destination a).run w).1 = .error e) : ∃ p, e = .io p := by
  cases a with
  | file content =>
    exact ((FailsByPath.writeFile fs destination content).bind fun _ => .pure [destination]) w e h
  | tree files =>
    exact ((FailsByPath.writeTree fs destination files).bind fun _ =>
      .pure (files.paths.map destination.join)) w e h

end RegisterMap
