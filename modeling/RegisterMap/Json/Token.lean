import RegisterMap.Json.Basic
import RegisterMap.Text.Hex

/-!
The tokens of a JSON text. Between them stand spaces, tabs and line ends only.
A string is read in two steps: into characters and surrogate halves, and then
into a text if every half has its partner.
-/

namespace RegisterMap.Json

inductive Token where
  | openArray
  | closeArray
  | openObject
  | closeObject
  | comma
  | colon
  | null
  | bool (b : Bool)
  | number (n : Number)
  | text (s : Text)

/-- What one place of a string stands for: a character, or one half of a pair. -/
inductive Unit16 where
  | char (c : Char)
  | half (n : Nat)
deriving DecidableEq

def Unit16.ofNat (n : Nat) : Unit16 :=
  if 0xD800 ≤ n ∧ n < 0xE000 then .half n else .char (Char.ofNat n)

def isHighHalf (n : Nat) : Bool := 0xD800 ≤ n && n < 0xDC00

def isLowHalf (n : Nat) : Bool := 0xDC00 ≤ n && n < 0xE000

/-- The text of a string, if each high half is followed by a low one and no low
half stands alone. -/
def assemble : List Unit16 → Option (List Char)
  | [] => some []
  | .char c :: rest => (assemble rest).map (c :: ·)
  | .half high :: .half low :: rest =>
    if isHighHalf high && isLowHalf low then
      (assemble rest).map (Char.ofNat (0x10000 + (high - 0xD800) * 0x400 + (low - 0xDC00)) :: ·)
    else none
  | .half _ :: _ => none

def textOf (units : List Unit16) : Text := (assemble units).map String.ofList

/-- What a letter after a backslash stands for. -/
def escapedChar? (c : Char) : Option Char :=
  if c = '"' ∨ c = '\\' ∨ c = '/' then some c
  else if c = 'b' then some '\x08'
  else if c = 'f' then some '\x0c'
  else if c = 'n' then some '\n'
  else if c = 'r' then some '\r'
  else if c = 't' then some '\t'
  else none

/-- Reads on behind an opening quote, and answers with what follows the closing
one. -/
def readString (units : List Unit16) : List Char → Option (List Unit16 × List Char)
  | [] => none
  | '\\' :: 'u' :: a :: b :: c :: d :: rest =>
    match Text.ofHexDigits? [a, b, c, d] with
    | some n => readString (.ofNat n :: units) rest
    | none => none
  | '\\' :: e :: rest =>
    match escapedChar? e with
    | some c => readString (.char c :: units) rest
    | none => none
  | c :: rest =>
    if c = '"' then some (units.reverse, rest)
    else if c.toNat < 0x20 then none
    else readString (.char c :: units) rest

theorem length_of_readString {units units' : List Unit16} {cs rest : List Char}
    (h : readString units cs = some (units', rest)) : rest.length < cs.length := by
  fun_induction readString units cs <;> simp_all <;> omega

/-- The characters that numbers are written with. -/
def isNumberChar (c : Char) : Bool :=
  c.isDigit || c == '+' || c == '-' || c == '.' || c == 'e' || c == 'E'

/-- A fraction's digits, none when there is no point. -/
def Number.fractionOf? : List Char → Option (Option (List Char))
  | [] => some none
  | c :: digits => if c = '.' ∧ digits ≠ [] then some (some digits) else none

/-- The number with an integer part, perhaps a fraction, and an exponent. Of the
digits those count that fit into a word; what is left of the integer part counts
in the exponent, and what is left of the fraction for nothing. -/
def Number.ofParts (negative : Bool) (whole fraction : List Char) (exponent : Int) : Number :=
  let (front, wholeLeft) := Decimal.fillWord 0 whole
  let (digits, fractionLeft) := Decimal.fillWord front fraction
  .decimal negative digits (exponent + wholeLeft.length + fractionLeft.length - fraction.length)

/-- A number without a sign, a fraction or an exponent. -/
def Number.ofDigits (digits : List Char) : Number :=
  match Decimal.fillWord 0 digits with
  | (n, []) => .natural n
  | _ => ofParts false digits [] 0

/-- The number that a whole row of characters writes: an integer part without a
zero in front of other digits, then perhaps a fraction, then perhaps an
exponent. -/
def Number.ofChars? (cs : List Char) : Option Number := do
  let (negative, unsigned) : Bool × List Char :=
    match cs with
    | '-' :: rest => (true, rest)
    | _ => (false, cs)
  let whole := unsigned.takeWhile Char.isDigit
  let afterWhole := unsigned.dropWhile Char.isDigit
  if whole.isEmpty || (whole.head? == some '0' && whole.length > 1) then none
  else
    let isExponentMark := fun c : Char => c == 'e' || c == 'E'
    let point := afterWhole.takeWhile fun c => !isExponentMark c
    let fraction ← fractionOf? point
    let digits := fraction.getD []
    if !digits.all Char.isDigit then none
    else
      match afterWhole.dropWhile fun c => !isExponentMark c with
      | [] =>
        if !negative && fraction.isNone then some (.ofDigits whole)
        else some (.ofParts negative whole digits 0)
      | _ :: marked =>
        let exponent ← Decimal.exponent? marked
        some (.ofParts negative whole digits exponent)

/-- The tokens that one character is enough for. -/
def Token.ofChar? (c : Char) : Option Token :=
  if c = '[' then some .openArray
  else if c = ']' then some .closeArray
  else if c = '\x7b' then some .openObject
  else if c = '\x7d' then some .closeObject
  else if c = ',' then some .comma
  else if c = ':' then some .colon
  else none

def isSpace (c : Char) : Bool := c == ' ' || c == '\t' || c == '\n' || c == '\r'

/-- The tokens of a text, put behind those already read. -/
def tokensFrom (tokens : List Token) (cs : List Char) : Option (List Token) :=
  match cs with
  | [] => some tokens.reverse
  | 'n' :: 'u' :: 'l' :: 'l' :: rest => tokensFrom (.null :: tokens) rest
  | 't' :: 'r' :: 'u' :: 'e' :: rest => tokensFrom (.bool true :: tokens) rest
  | 'f' :: 'a' :: 'l' :: 's' :: 'e' :: rest => tokensFrom (.bool false :: tokens) rest
  | c :: rest =>
    if isSpace c then tokensFrom tokens rest
    else if c = '"' then
      match _h : readString [] rest with
      | some (units, after) => tokensFrom (.text (textOf units) :: tokens) after
      | none => none
    else if c.isDigit || c == '-' then
      match Number.ofChars? (c :: rest.takeWhile isNumberChar) with
      | some n => tokensFrom (.number n :: tokens) (rest.dropWhile isNumberChar)
      | none => none
    else
      match Token.ofChar? c with
      | some token => tokensFrom (token :: tokens) rest
      | none => none
termination_by cs.length
decreasing_by
  all_goals simp only [List.length_cons]
  all_goals first
    | omega
    | exact Nat.lt_succ_of_lt (length_of_readString _h)
    | exact Nat.lt_succ_of_le (List.dropWhile_suffix isNumberChar).length_le

def tokens? (s : String) : Option (List Token) := tokensFrom [] s.toList

end RegisterMap.Json
