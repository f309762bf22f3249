import RegisterMap.Model.Validate

/-!
What makes an export fail, by its cause, and how each cause is told.
-/

namespace RegisterMap

inductive ExportError where
  | notATop (name : String) (kind : Kind)
  | badOptions
  | overlappingArray (path : String) (stride size : Nat)
  | io (path : Path)
  | model (e : ModelError)
  | malformedDocument
  | fatal (text : String)
deriving DecidableEq, Repr

/-- The text of a failure. A step, options and a document that failed are told with the
cause, in the words of the system or of the parser, where it is known. -/
def ExportError.message (e : ExportError) (cause : String := "") : String :=
  let because := if cause.isEmpty then "" else ": " ++ cause
  match e with
  | notATop name kind =>
    "invalid argument: '" ++ name ++ "' is a " ++ kind.word ++
      " node; exports start from an addrmap or mem"
  | badOptions => "invalid argument: " ++ cause
  | overlappingArray path stride size =>
    "structural incompatibility: register array '" ++ path ++ "' has stride " ++
      toString stride ++ ", smaller than its " ++ toString size ++ "-byte size"
  | io path => "I/O error on '" ++ path.text ++ "'" ++ because
  | model e => "invalid model: " ++ e.message
  | malformedDocument => "malformed design document" ++ because
  | fatal text => text

end RegisterMap
