import RegisterMap.Json.Token

/-!
From tokens to a value. The reader keeps the arrays and objects that are still
open, innermost first, and each token moves it from one expectation to the
next, so that reading is one pass over the tokens.
-/

namespace RegisterMap.Json

/-- An open array, or an open object with the key whose value is being read.
What is already complete is kept latest first. -/
inductive Frame where
  | items (done : List Json)
  | member (done : List (Text × Json)) (key : Text)

/-- What may come next. -/
inductive State where
  | value (outer : List Frame)
  | itemOrClose (outer : List Frame)
  | keyOrClose (outer : List Frame)
  | nextKey (done : List (Text × Json)) (outer : List Frame)
  | colon (done : List (Text × Json)) (key : Text) (outer : List Frame)
  | afterItem (done : List Json) (outer : List Frame)
  | afterMember (done : List (Text × Json)) (outer : List Frame)
  | finished (value : Json)

/-- The state once a value is complete. -/
def State.complete (v : Json) : List Frame → State
  | [] => .finished v
  | .items done :: outer => .afterItem (v :: done) outer
  | .member done key :: outer => .afterMember ((key, v) :: done) outer

/-- A token where a value has to stand. -/
def State.startValue (outer : List Frame) : Token → Option State
  | .null => some (.complete .null outer)
  | .bool b => some (.complete (.bool b) outer)
  | .number n => some (.complete (.number n) outer)
  | .text s => some (.complete (.text s) outer)
  | .openArray => some (.itemOrClose outer)
  | .openObject => some (.keyOrClose outer)
  | _ => none

def State.step : State → Token → Option State
  | .value outer, token => startValue outer token
  | .itemOrClose outer, .closeArray => some (.complete (.array []) outer)
  | .itemOrClose outer, token => startValue (.items [] :: outer) token
  | .keyOrClose outer, .closeObject => some (.complete (.object []) outer)
  | .keyOrClose outer, .text key => some (.colon [] key outer)
  | .nextKey done outer, .text key => some (.colon done key outer)
  | .colon done key outer, .colon => some (.value (.member done key :: outer))
  | .afterItem done outer, .comma => some (.value (.items done :: outer))
  | .afterItem done outer, .closeArray => some (.complete (.array done.reverse) outer)
  | .afterMember done outer, .comma => some (.nextKey done outer)
  | .afterMember done outer, .closeObject => some (.complete (.object done.reverse) outer)
  | _, _ => none

/-- The value that a whole text is, if it is one. -/
def ofText? (s : String) : Option Json := do
  let tokens ← tokens? s
  match ← tokens.foldlM State.step (.value []) with
  | .finished v => some v
  | _ => none

end RegisterMap.Json
