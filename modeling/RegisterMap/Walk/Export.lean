import RegisterMap.Storage.Write
import RegisterMap.Walk.Emitter

/-!
A whole export: the artifact of a map is made and then written. A failure is
told by a last message; an overflow is not told.
-/

namespace RegisterMap

structure Report where
  explosion : Explosion
  warnings : Nat
  files : List Path

/-- The cause of a failure, which is known of a failed step alone. -/
def FileSystem.causeOf {m : Type → Type} (fs : FileSystem m) : ExportError → String
  | .io p => fs.cause p
  | _ => ""

/-- The failure of an export as its last message. -/
def Session.tell (s : Session σ) (causeOf : ExportError → String) : Stop → Session σ
  | .failed e => s.emit .fatal (e.message (causeOf e))
  | .overflow => s

namespace Emitter

variable {m : Type → Type} [Monad m]

/-- Exports a map to a destination. -/
def run (em : Emitter σ) (fs : FileSystem m) (top : Node) (destination : Path) :
    m (Except Stop Report × Session σ) := do
  match em.produce top destination with
  | (.error reason, s) => return (.error reason, s.tell fs.causeOf reason)
  | (.ok artifact, s) =>
    match ← fs.writeArtifact destination artifact with
    | .error e => return (.error (.failed e), s.tell fs.causeOf (.failed e))
    | .ok files =>
      let explosion := em.explosion top
      let told := s.emit .debug ("wrote " ++ toString files.length ++ " file(s)")
      return (.ok { explosion, warnings := s.warnings, files }, told)

end Emitter

end RegisterMap
