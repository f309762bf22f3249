import RegisterMap.Decimal
import RegisterMap.Text.Hex
import RegisterMap.Toml.Basic

/-!
Values of one word: truth values, numbers and dates. Between the digits of a
number single underscores may stand.
-/

namespace RegisterMap.Toml

/-- The digits of a number whose underscores all have a digit on either side. -/
def digits? (isDigit : Char → Bool) : (afterDigit : Bool) → List Char → Option (List Char)
  | afterDigit, [] => if afterDigit then some [] else none
  | afterDigit, c :: rest =>
    if isDigit c then (digits? isDigit true rest).map (c :: ·)
    else if c = '_' && afterDigit then digits? isDigit false rest
    else none

def decimalDigits? (cs : List Char) : Option (List Char) := digits? Char.isDigit false cs

/-- The digits of a number without a zero in front of others. -/
def wholeDigits? (cs : List Char) : Option (List Char) :=
  match decimalDigits? cs with
  | some ds => if ds.head? = some '0' ∧ cs ≠ ['0'] then none else some ds
  | none => none

/-- The sign of a number, and what follows it. -/
def signed : List Char → Bool × List Char
  | '-' :: rest => (true, rest)
  | '+' :: rest => (false, rest)
  | cs => (false, cs)

/-- One more than the largest word of 64 bits with a sign. -/
def wordEnd : Nat := 9223372036854775808

/-- An integer as a word of 64 bits with a sign. -/
def integerOf? (negative : Bool) (n : Nat) : Option Toml :=
  if negative then if n ≤ wordEnd then some (.integer (-n)) else none
  else if n < wordEnd then some (.integer n) else none

/-- An integer in another base, which takes no sign. -/
def based? (base : Nat) (cs : List Char) : Option Toml := do
  let isDigit := fun c : Char => ((Text.hexValue? c).map (decide <| · < base)).getD false
  let ds ← digits? isDigit false cs
  integerOf? false (ds.foldl (fun n c => base * n + (Text.hexValue? c).getD 0) 0)

/-- The digits behind a point. -/
def fraction? : List Char → Option (List Char)
  | [] => some []
  | '.' :: rest => decimalDigits? rest
  | _ => none

/-- A number with a fraction or an exponent, which must not be too large. -/
def floatOf? (negative : Bool) (cs : List Char) : Option Toml := do
  let isMark := fun c : Char => c == 'e' || c == 'E'
  let front := cs.takeWhile fun c => !isMark c
  let whole ← wholeDigits? (front.takeWhile (· != '.'))
  let fraction ← fraction? (front.dropWhile (· != '.'))
  let exponent ←
    match cs.dropWhile fun c => !isMark c with
    | [] => if fraction.isEmpty then none else some 0
    | _ :: marked => do
      let (below, unsigned) := signed marked
      let ds ← decimalDigits? unsigned
      some (if below then -Int.ofNat (Decimal.value ds) else Int.ofNat (Decimal.value ds))
  if negative || Decimal.isFinite (Decimal.value (whole ++ fraction)) (exponent - fraction.length)
  then some .float else none

def number? (cs : List Char) : Option Toml :=
  match cs with
  | '0' :: 'x' :: rest => based? 16 rest
  | '0' :: 'o' :: rest => based? 8 rest
  | '0' :: 'b' :: rest => based? 2 rest
  | _ =>
    let (negative, unsigned) := signed cs
    match wholeDigits? unsigned with
    | some ds => integerOf? negative (Decimal.value ds)
    | none =>
      if unsigned = ['i', 'n', 'f'] ∨ unsigned = ['n', 'a', 'n'] then some .float
      else floatOf? negative unsigned

/-- A number of so many digits and no more, within bounds. -/
def field? (count least greatest : Nat) (cs : List Char) : Option Nat :=
  let n := Decimal.value cs
  if cs.length = count ∧ cs.all Char.isDigit ∧ least ≤ n ∧ n ≤ greatest then some n else none

def daysIn (year month : Nat) : Nat :=
  if month = 2 then
    if year % 4 = 0 ∧ (year % 100 ≠ 0 ∨ year % 400 = 0) then 29 else 28
  else if month = 4 ∨ month = 6 ∨ month = 9 ∨ month = 11 then 30
  else 31

/-- A day, as in `1979-05-27`. -/
def isDate (cs : List Char) : Bool :=
  let parts := (do
    let year ← field? 4 0 9999 (cs.take 4)
    let month ← field? 2 1 12 ((cs.drop 5).take 2)
    let _ ← field? 2 1 (daysIn year month) (cs.drop 8)
    some () : Option Unit)
  parts.isSome && cs[4]? == some '-' && cs[7]? == some '-'

/-- A time of day to the second. -/
def isClock (cs : List Char) : Bool :=
  let parts := (do
    let _ ← field? 2 0 23 (cs.take 2)
    let _ ← field? 2 0 59 ((cs.drop 3).take 2)
    let _ ← field? 2 0 60 (cs.drop 6)
    some () : Option Unit)
  parts.isSome && cs[2]? == some ':' && cs[5]? == some ':'

/-- The distance from universal time, or nothing. -/
def isZone : List Char → Bool
  | [] => true
  | ['Z'] => true
  | ['z'] => true
  | sign :: rest =>
    (sign == '+' || sign == '-') && rest[2]? == some ':' &&
      (field? 2 0 23 (rest.take 2)).isSome && (field? 2 0 59 (rest.drop 3)).isSome

/-- What may follow the seconds: a fraction, and a zone where there is a date. -/
def isAfterSeconds (hasDate : Bool) (cs : List Char) : Bool :=
  let afterFraction : Option (List Char) :=
    match cs with
    | '.' :: rest => if (rest.takeWhile Char.isDigit).isEmpty then none
      else some (rest.dropWhile Char.isDigit)
    | _ => some cs
  match afterFraction with
  | some rest => if hasDate then isZone rest else rest.isEmpty
  | none => false

def isTime (hasDate : Bool) (cs : List Char) : Bool :=
  isClock (cs.take 8) && isAfterSeconds hasDate (cs.drop 8)

/-- A date, a time of day, or both with a letter or a space between them. -/
def isMoment (cs : List Char) : Bool :=
  isTime false cs ||
    (isDate (cs.take 10) &&
      match cs.drop 10 with
      | [] => true
      | delimiter :: rest =>
        (delimiter == 'T' || delimiter == 't' || delimiter == ' ') && isTime true rest)

/-- The value that a word writes. -/
def scalar? (cs : List Char) : Option Toml :=
  if cs = ['t', 'r', 'u', 'e'] then some (.bool true)
  else if cs = ['f', 'a', 'l', 's', 'e'] then some (.bool false)
  else if isMoment cs then some .moment
  else number? cs

/-- What words are made of. -/
def isWordChar (c : Char) : Bool :=
  c.isAlphanum || c == '_' || c == '-' || c == '+' || c == '.' || c == ':'

/-- The word at the front and what follows it. A date takes the time of day behind
a space with it. -/
def word (cs : List Char) : List Char × List Char :=
  let front := cs.takeWhile isWordChar
  let rest := cs.dropWhile isWordChar
  match rest with
  | ' ' :: digit :: more =>
    if digit.isDigit && isDate front then
      (front ++ [' '] ++ (digit :: more).takeWhile isWordChar, (digit :: more).dropWhile isWordChar)
    else (front, rest)
  | _ => (front, rest)

end RegisterMap.Toml
