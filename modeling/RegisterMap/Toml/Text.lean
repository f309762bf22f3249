import RegisterMap.Text.Hex
import RegisterMap.Toml.Basic

/-!
The four kinds of strings: with escapes or without, on one line or on several.
Every reader starts behind the opening quotes and answers with what follows the
closing ones.
-/

namespace RegisterMap.Toml

/-- The character with a number, if there is one. -/
def charOf? (digits : List Char) : Option Char :=
  match Text.ofHexDigits? digits with
  | some n => if n.isValidChar then some (Char.ofNat n) else none
  | none => none

/-- The character with a number of so many digits at the front. -/
def numbered? (count : Nat) (cs : List Char) : Option (Char × Nat) :=
  let digits := cs.take count
  if digits.length = count then (charOf? digits).map (·, count + 1) else none

/-- The character that an escape stands for, and the length of the escape behind
its backslash. -/
def escape? : List Char → Option (Char × Nat)
  | [] => none
  | e :: rest =>
    if e = 'b' then some ('\x08', 1)
    else if e = 't' then some ('\t', 1)
    else if e = 'n' then some ('\n', 1)
    else if e = 'f' then some ('\x0c', 1)
    else if e = 'r' then some ('\r', 1)
    else if e = '"' then some ('"', 1)
    else if e = '\\' then some ('\\', 1)
    else if e = 'u' then numbered? 4 rest
    else if e = 'U' then numbered? 8 rest
    else none

/-- What may stand in a string as it is. -/
def isTextChar (c : Char) : Bool := isCommentChar c

def readBasic (done : List Char) : (skipped : Nat) → List Char → Option (List Char × List Char)
  | _, [] => none
  | n + 1, _ :: rest => readBasic done n rest
  | 0, c :: rest =>
    if c = '"' then some (done.reverse, rest)
    else if c = '\\' then
      match escape? rest with
      | some (e, length) => readBasic (e :: done) length rest
      | none => none
    else if isTextChar c then readBasic (c :: done) 0 rest
    else none

def readLiteral (done : List Char) : List Char → Option (List Char × List Char)
  | [] => none
  | c :: rest =>
    if c = '\'' then some (done.reverse, rest)
    else if isTextChar c then readLiteral (c :: done) rest
    else none

/-- What follows all blanks and line ends. -/
def skipLines : List Char → List Char
  | [] => []
  | '\r' :: '\n' :: rest => skipLines rest
  | c :: rest => if isBlank c || c == '\n' then skipLines rest else c :: rest

/-- The length of a line's end behind a backslash, with the blank lines and the
indentation that it swallows. -/
def joint? (cs : List Char) : Option Nat := do
  let rest ← newLine? (skipBlanks cs)
  some (cs.length - (skipLines rest).length)

/-- At least three quotes close a string of several lines. Up to two more belong
to its text. -/
def closing? (quote : Char) (cs : List Char) : Option (List Char × List Char) :=
  let run := (cs.takeWhile (· == quote)).length
  if 3 ≤ run ∧ run ≤ 5 then some (List.replicate (run - 3) quote, cs.drop run) else none

/-- A string of several lines. With escapes, a backslash at the end of a line
joins it to the next text. -/
def readLines (quote : Char) (hasEscapes : Bool) (done : List Char) :
    (skipped : Nat) → List Char → Option (List Char × List Char)
  | _, [] => none
  | n + 1, _ :: rest => readLines quote hasEscapes done n rest
  | 0, c :: rest =>
    if c = quote then
      if [quote, quote].isPrefixOf rest then
        (closing? quote (c :: rest)).map fun closed => (done.reverse ++ closed.1, closed.2)
      else readLines quote hasEscapes (c :: done) 0 rest
    else if hasEscapes && c == '\\' then
      match escape? rest, joint? rest with
      | some (e, length), _ => readLines quote hasEscapes (e :: done) length rest
      | none, some length => readLines quote hasEscapes done length rest
      | none, none => none
    else if (newLine? (c :: rest)).isSome then
      readLines quote hasEscapes ('\n' :: done) (if c = '\r' then 1 else 0) rest
    else if isTextChar c then readLines quote hasEscapes (c :: done) 0 rest
    else none

/-- A line's end right behind the opening quotes does not count. -/
def skipNewLine (cs : List Char) : List Char := (newLine? cs).getD cs

/-- A string on one line. -/
def simpleText? : List Char → Option (List Char × List Char)
  | '"' :: rest => readBasic [] 0 rest
  | '\'' :: rest => readLiteral [] rest
  | _ => none

/-- A string of any kind. -/
def text? (cs : List Char) : Option (List Char × List Char) :=
  match cs with
  | '"' :: '"' :: '"' :: rest => readLines '"' true [] 0 (skipNewLine rest)
  | '\'' :: '\'' :: '\'' :: rest => readLines '\'' false [] 0 (skipNewLine rest)
  | _ => simpleText? cs

end RegisterMap.Toml
