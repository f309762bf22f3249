import RegisterMap.Toml.Scalar
import RegisterMap.Toml.Table
import RegisterMap.Toml.Text

/-!
From text to a table. Values are read by what they start with, and documents
line by line: a line is empty, the header of a table, or a key with its value.
-/

namespace RegisterMap.Toml

/-- A reader of something at the front of a text, with what follows it. -/
abbrev Reads (α : Type) := List Char → Option (α × List Char)

def isKeyChar (c : Char) : Bool := c.isAlphanum || c == '_' || c == '-'

/-- A part of a key, bare or quoted. -/
def keyPart? : Reads String := fun cs =>
  match simpleText? cs with
  | some (part, rest) => some (String.ofList part, rest)
  | none =>
    let part := cs.takeWhile isKeyChar
    if part.isEmpty then none else some (String.ofList part, cs.dropWhile isKeyChar)

/-- A key of at most so many parts, with dots between them. -/
def key? : Nat → Reads (List String)
  | 0, _ => none
  | n + 1, cs => do
    let (part, rest) ← keyPart? (skipBlanks cs)
    match skipBlanks rest with
    | '.' :: more =>
      let (parts, rest) ← key? n more
      some (part :: parts, rest)
    | rest => some ([part], rest)

/-- What follows blanks, line ends and comments. -/
def skipSpace : Nat → List Char → List Char
  | 0, cs => cs
  | n + 1, cs =>
    match skipBlanks cs with
    | '#' :: rest => skipSpace n (rest.dropWhile isCommentChar)
    | rest =>
      match newLine? rest with
      | some after => skipSpace n after
      | none => rest

def skipAllSpace (cs : List Char) : List Char := skipSpace (cs.length + 1) cs

/-- The items of an array behind its bracket. A comma may stand behind the last
one. -/
def items? (value? : Reads Toml) (done : List Toml) : (steps : Nat) → Reads (List Toml)
  | 0, _ => none
  | n + 1, cs =>
    match skipAllSpace cs with
    | ']' :: rest => some (done.reverse, rest)
    | cs => do
      let (item, rest) ← value? cs
      match skipAllSpace rest with
      | ']' :: rest => some ((item :: done).reverse, rest)
      | ',' :: rest => items? value? (item :: done) n rest
      | _ => none

/-- A key, an equals sign and a value. -/
def assignment? (value? : Reads Toml) : Reads (List String × Toml) := fun cs => do
  let (key, rest) ← key? nesting cs
  match rest with
  | '=' :: rest =>
    let (v, rest) ← value? (skipBlanks rest)
    some ((key, v), rest)
  | _ => none

/-- The entries of a table inside a value, all on one line. -/
def entries? (value? : Reads Toml) (table : Table) : (steps : Nat) → Reads Table
  | 0, _ => none
  | n + 1, cs => do
    let ((key, v), rest) ← assignment? value? cs
    let table ← table.assign v key
    match skipBlanks rest with
    | '\x7d' :: rest => some (table, rest)
    | ',' :: rest => entries? value? table n rest
    | _ => none

/-- A value with at most so many levels of arrays and tables. -/
def value? : (levels : Nat) → Reads Toml
  | levels, cs =>
    match levels, cs with
    | n + 1, '[' :: rest =>
      (items? (value? n) [] (rest.length + 1) rest).map fun (items, rest) => (.array items, rest)
    | n + 1, '\x7b' :: rest =>
      match skipBlanks rest with
      | '\x7d' :: rest => some (.table [], rest)
      | rest =>
        (entries? (value? n) [] (rest.length + 1) rest).map fun (inner, rest) =>
          (.table (entriesOf inner), rest)
    | _, _ =>
      match text? cs with
      | some (s, rest) => some (.text (String.ofList s), rest)
      | none =>
        let (front, rest) := word cs
        (scalar? front).map (·, rest)

/-- The table of all that is read so far, and the path of the last header. -/
structure Document where
  table : Table := []
  path : List String := []

namespace Document

/-- A line with a header for a table or, in double brackets, for one more table of
an array. -/
def header? (d : Document) (isArray : Bool) (cs : List Char) : Option (Document × List Char) := do
  let (key, rest) ← key? nesting cs
  let last ← key.getLast?
  let change := if isArray then Table.extend last else Table.name last
  let table ← d.table.alter change key.dropLast
  let closing := if isArray then [']', ']'] else [']']
  if closing.isPrefixOf rest then
    some ({ table, path := key }, rest.drop closing.length)
  else none

/-- The statement at the front. -/
def statement? (d : Document) (cs : List Char) : Option (Document × List Char) :=
  match cs with
  | '[' :: '[' :: rest => d.header? true rest
  | '[' :: rest => d.header? false rest
  | _ => do
    let ((key, v), rest) ← assignment? (value? nesting) cs
    let table ← d.table.alter (Table.assign v key) d.path
    some ({ d with table }, rest)

/-- All lines of a text. -/
def lines? (d : Document) : (steps : Nat) → List Char → Option Document
  | 0, _ => none
  | n + 1, cs =>
    match skipBlanks cs with
    | [] => some d
    | front =>
      match lineEnd? front with
      | some rest => lines? d n rest
      | none => do
        let (d, rest) ← d.statement? front
        let rest ← lineEnd? rest
        lines? d n rest

end Document

/-- A byte-order mark in front of a text does not count. -/
def skipMark : List Char → List Char
  | '\ufeff' :: rest => rest
  | cs => cs

/-- The table that a whole text writes. -/
def ofText? (s : String) : Option (List (String × Toml)) :=
  let cs := skipMark s.toList
  (Document.lines? {} (cs.length + 1) cs).map fun d => entriesOf d.table

end RegisterMap.Toml
