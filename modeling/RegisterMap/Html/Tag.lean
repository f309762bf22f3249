import RegisterMap.Path
import RegisterMap.Text.Blank

/-!
Tags in a fragment of markup: headings, and images that close themselves. A tag
is looked for at every `<`, and where none matches the search goes on behind it.
-/

namespace RegisterMap.Html

/-- A fragment is cut into characters that stay and tags that match. -/
inductive Piece (α : Type) where
  | char (c : Char)
  | tag (a : α)

/-- The pieces of a fragment, once some characters are skipped. A tag is
recognised with its length at the front of what follows. -/
def cut (tag? : List Char → Option (α × Nat)) : Nat → List Char → List (Piece α)
  | _, [] => []
  | skipped + 1, _ :: rest => cut tag? skipped rest
  | 0, c :: rest =>
    match if c = '<' then tag? (c :: rest) else none with
    | some (a, length) => .tag a :: cut tag? (length - 1) rest
    | none => .char c :: cut tag? 0 rest

structure Heading where
  closes : Bool
  level : Nat
deriving DecidableEq, Repr

namespace Heading

def render (h : Heading) : List Char :=
  ['<'] ++ (if h.closes then ['/'] else []) ++ ['h'] ++ (toString h.level).toList ++ ['>']

/-- What follows the `<` of a heading's tag, up to its `>`. -/
def ofChars? (closes : Bool) : List Char → Option Heading
  | h :: digit :: '>' :: _ =>
    if (h = 'h' ∨ h = 'H') ∧ digit.isDigit then
      some { closes, level := digit.toNat - '0'.toNat }
    else none
  | _ => none

/-- The tag of a heading at the front, without attributes, and its length. -/
def tag? : List Char → Option (Heading × Nat)
  | '<' :: '/' :: rest => (ofChars? true rest).map (·, 5)
  | '<' :: rest => (ofChars? false rest).map (·, 4)
  | _ => none

end Heading

/-- The blanks inside a tag. -/
def isTagBlank (c : Char) : Bool := c == ' ' || c == '\t' || c == '\r' || c == '\n'

/-- A word in either case at the front, as it is written, and what follows. -/
def word? : List Char → List Char → Option (List Char × List Char)
  | [], cs => some ([], cs)
  | w :: ws, c :: cs =>
    if c.toLower = w then (word? ws cs).map fun found => (c :: found.1, found.2) else none
  | _ :: _, [] => none

/-- What stands in front of the first `/>`. -/
def untilClose? : List Char → Option (List Char)
  | [] => none
  | '/' :: '>' :: _ => some []
  | c :: rest => (untilClose? rest).map (c :: ·)

/-- An attribute's text taken apart around a value in it. -/
structure Source where
  before : List Char
  value : List Char
  after : List Char
deriving DecidableEq, Repr

namespace Source

/-- A quoted value at the front. -/
def quoted? : List Char → Option Source
  | [] => none
  | quote :: rest =>
    let value := rest.takeWhile (· != quote)
    let after := rest.dropWhile (· != quote)
    if (quote = '"' ∨ quote = '\'') ∧ after ≠ [] then some { before := [quote], value, after }
    else none

/-- A source attribute at the front, from its name to the quote behind its value;
the rest of the text counts as what is after it. -/
def attribute? (cs : List Char) : Option Source := do
  let (name, rest) ← word? ['s', 'r', 'c'] cs
  let blanks := rest.takeWhile isTagBlank
  match rest.dropWhile isTagBlank with
  | '=' :: assigned =>
    let more := assigned.takeWhile isTagBlank
    let source ← quoted? (assigned.dropWhile isTagBlank)
    some { source with before := name ++ blanks ++ ['='] ++ more ++ source.before }
  | _ => none

/-- The first source attribute in a tag's attributes. It stands at their front or
behind white space. -/
def find? (afterSpace : Bool) : List Char → Option Source
  | [] => none
  | c :: rest =>
    match if afterSpace then attribute? (c :: rest) else none with
    | some source => some source
    | none =>
      (find? (Text.isBlank c) rest).map fun source => { source with before := c :: source.before }

end Source

/-- The front of an image's tag, up to its attributes, and the attributes. -/
def imageTag? : List Char → Option (List Char × List Char)
  | '<' :: rest => do
    let blanks := rest.takeWhile isTagBlank
    let (name, more) ← word? ['i', 'm', 'g'] (rest.dropWhile isTagBlank)
    let attributes ← untilClose? more
    some (['<'] ++ blanks ++ name, attributes)
  | _ => none

/-- The tag of an image with a source at the front, taken apart around the value
of the source, and the length of the tag. -/
def imageSource? (cs : List Char) : Option (Source × Nat) := do
  let (front, attributes) ← imageTag? cs
  let source ← Source.find? true attributes
  some ({ source with before := front ++ source.before, after := source.after ++ ['/', '>'] },
    front.length + attributes.length + 2)

end RegisterMap.Html
