import Mathlib.Data.List.Basic
import RegisterMap.Proofs.Text.Identifier
import RegisterMap.Proofs.Text.Split
import RegisterMap.Proofs.Text.SplitsOff
import RegisterMap.Uvm.Printer

/-!
Lines of a package, read back. A line that belongs to the structure of the model is made
of words between fixed texts: it opens a class, declares a handle, creates an instance or
maps one at an offset. Each of these is read from the characters alone, and all that
another line says is passed over. Names are words, so a word ends where the fixed text
behind it begins, and no name can be taken for something else.
-/

namespace RegisterMap.Uvm

open Text

/-- What a line of a class says: that the class begins, that it has a handle of another
class, that an instance is created, or where an instance is mapped. -/
inductive Statement where
  | opens (name : String)
  | declares (className handle : String) (dimensions : List Nat)
  | creates (className handle : String)
  | maps (kind : MemberKind) (handle : String) (index : List Nat) (offset : Nat)
deriving DecidableEq, Repr

/-- The word that a text begins with, and what stands behind it. -/
def word (cs : List Char) : String × List Char :=
  (String.ofList (cs.takeWhile Identifier.isWordChar), cs.dropWhile Identifier.isWordChar)

/-- The word behind a fixed text. -/
def wordBehind? (front : String) (cs : List Char) : Option (String × List Char) :=
  (cs.dropPrefix? front.toList).map word

def isSubscriptChar (c : Char) : Bool := c.isDigit || c == '[' || c == ']'

/-- The numbers in brackets that a text begins with. -/
def readIndex (cs : List Char) : List Nat :=
  (splitAt '[' (cs.takeWhile isSubscriptChar)).tail.map fun piece =>
    ofDecimal (String.ofList (piece.takeWhile Char.isDigit))

/-- The call that maps an instance, up to its name. -/
def MemberKind.call : MemberKind → String
  | register => ".add_reg(this."
  | block => ".add_submap(this."
  | memory => ".add_mem(this."

/-- What stands between the subscripts of an instance and the digits of its offset. -/
def MemberKind.comma : MemberKind → String
  | block => ".default_map, 'h"
  | register | memory => ", 'h"

namespace Statement

def opened? (first : String) (rest : List Char) : Option Statement :=
  if first = "class" then
    (wordBehind? " " rest).bind fun (name, rest) =>
      (rest.dropPrefix? " extends ".toList).map fun _ => .opens name
  else none

/-- An instance at a place. -/
def placed? (kind : MemberKind) (handle : String) (rest : List Char) : Option Statement :=
  ((rest.dropWhile isSubscriptChar).dropPrefix? kind.comma.toList).bind fun digits =>
    (ofHexDigits? (digits.takeWhile Identifier.isWordChar)).map
      (.maps kind handle (readIndex rest))

def mapped? (receiver : String) (rest : List Char) : Option Statement :=
  if receiver = "default_map" then
    [MemberKind.register, .block, .memory].findSome? fun kind =>
      (wordBehind? kind.call rest).bind fun (handle, rest) => placed? kind handle rest
  else none

def created? (handle : String) (rest : List Char) : Option Statement :=
  (wordBehind? " = " (rest.dropWhile (· ≠ ' '))).bind fun (className, rest) =>
    (rest.dropPrefix? "::type_id::create(".toList).map fun _ => .creates className handle

/-- A line about what the instance of a class has itself. -/
def ofThis? (first : String) (rest : List Char) : Option Statement :=
  if first = "this" then
    (wordBehind? "." rest).bind fun (name, rest) => mapped? name rest <|> created? name rest
  else none

def declaredAs? (className : String) (rest : List Char) : Option Statement :=
  (wordBehind? " " rest).bind fun (handle, rest) =>
    if rest.dropWhile isSubscriptChar = [';'] then
      some (.declares className handle (readIndex rest))
    else none

def declared? (first : String) (rest : List Char) : Option Statement :=
  declaredAs? first rest <|>
    if first = "rand" then
      (wordBehind? " " rest).bind fun (className, rest) => declaredAs? className rest
    else none

/-- The statement of a line, from its first word and what stands behind it. -/
def read? (first : String) (rest : List Char) : Option Statement :=
  opened? first rest <|> ofThis? first rest <|> declared? first rest

def ofLine? (line : String) : Option Statement :=
  let (first, rest) := word (line.toList.dropWhile (· = ' '))
  read? first rest

end Statement

/-! Words and subscripts. -/

def IsWord (s : String) : Prop := ∀ c ∈ s.toList, Identifier.isWordChar c = true

instance (s : String) : Decidable (IsWord s) :=
  decidable_of_iff (s.toList.all Identifier.isWordChar = true) List.all_eq_true

/-- A fixed text ends the word before it. -/
def Ends (front : String) : Prop := front.toList.head?.any (!Identifier.isWordChar ·) = true

instance (front : String) : Decidable (Ends front) := inferInstanceAs (Decidable (_ = true))

theorem stops_of_ends {front : String} (h : Ends front) (rest : List Char) :
    Stops Identifier.isWordChar (front.toList ++ rest) := by
  unfold Ends at h
  cases hfront : front.toList with
  | nil => simp [hfront] at h
  | cons c more => exact stops_cons (by simpa [hfront] using h) _

theorem word_append {w : String} {rest : List Char} (hword : IsWord w)
    (hrest : Stops Identifier.isWordChar rest) : word (w.toList ++ rest) = (w, rest) := by
  obtain ⟨htake, hdrop⟩ := takeWhile_append_of_stops hword hrest
  rw [word, htake, hdrop, String.ofList_toList]

theorem dropPrefix?_append (front rest : List Char) :
    (front ++ rest).dropPrefix? front = some rest :=
  List.dropPrefix?_append_of_beq rest (beq_self_eq_true front)

theorem wordBehind?_append (front : String) {w : String} {rest : List Char} (hword : IsWord w)
    (hrest : Stops Identifier.isWordChar rest) :
    wordBehind? front (front.toList ++ (w.toList ++ rest)) = some (w, rest) := by
  rw [wordBehind?, dropPrefix?_append, Option.map_some, word_append hword hrest]

theorem dropPrefix?_eq_none {front cs : List Char} (h : ¬ front <+: cs) :
    cs.dropPrefix? front = none := by
  rw [Option.eq_none_iff_forall_ne_some]
  intro rest hrest
  obtain ⟨other, rfl, hother⟩ := List.dropPrefix?_eq_some_iff.1 hrest
  exact h (beq_iff_eq.1 hother ▸ List.prefix_append other rest)

theorem wordBehind?_eq_none {front : String} {cs : List Char}
    (h : ¬ front.toList <+: cs) : wordBehind? front cs = none := by
  rw [wordBehind?, dropPrefix?_eq_none h, Option.map_none]

theorem toList_subscripts_cons (i : Nat) (index : List Nat) :
    (subscripts (i :: index)).toList =
      '[' :: ((toString i).toList ++ [']']) ++ (subscripts index).toList := by
  simp [subscripts]

theorem isSubscriptChar_of_mem (index : List Nat) :
    ∀ c ∈ (subscripts index).toList, isSubscriptChar c = true := by
  induction index with
  | nil => simp [subscripts]
  | cons i rest ih =>
    have hdigits : ∀ c ∈ (toString i).toList, isSubscriptChar c = true := fun c hc => by
      simp [isSubscriptChar, isDigit_of_mem_toString i c hc]
    rw [toList_subscripts_cons, List.forall_mem_append, List.forall_mem_cons,
      List.forall_mem_append]
    exact ⟨⟨rfl, hdigits, List.forall_mem_singleton.2 rfl⟩, ih⟩

/-- Each bracket begins another number. -/
theorem splitAt_subscripts (index : List Nat) :
    splitAt '[' (subscripts index).toList =
      [] :: index.map fun i => (toString i).toList ++ [']'] := by
  induction index with
  | nil => simp [subscripts, splitAt]
  | cons i rest ih =>
    have hnumber : '[' ∉ (toString i).toList ++ [']'] := by
      simpa using not_mem_toString (c := '[') rfl i
    obtain ⟨piece, pieces, hpieces, happend⟩ :=
      splitAt_append hnumber (subscripts rest).toList
    obtain ⟨rfl, rfl⟩ := List.cons.inj (ih.symm.trans hpieces)
    rw [toList_subscripts_cons, List.cons_append, splitAt, if_pos rfl, happend]
    simp

theorem readIndex_subscripts (index : List Nat) {rest : List Char}
    (hrest : Stops isSubscriptChar rest) :
    readIndex ((subscripts index).toList ++ rest) = index := by
  obtain ⟨htake, -⟩ := takeWhile_append_of_stops (isSubscriptChar_of_mem index) hrest
  have hnumber (i : Nat) : ((toString i).toList ++ [']']).takeWhile Char.isDigit =
      (toString i).toList :=
    (takeWhile_append_of_stops (isDigit_of_mem_toString i)
      (stops_cons (c := ']') (by decide) [])).1
  rw [readIndex, htake, splitAt_subscripts, List.tail_cons, List.map_map]
  simp only [Function.comp_def, hnumber, String.ofList_toList, ofDecimal_toString, List.map_id']

/-- A subscript or the end of a declaration is behind no word. -/
theorem stops_subscripts {rest : List Char} (hrest : Stops Identifier.isWordChar rest)
    (index : List Nat) : Stops Identifier.isWordChar ((subscripts index).toList ++ rest) := by
  cases index with
  | nil => simpa [subscripts] using hrest
  | cons i index =>
    rw [toList_subscripts_cons]
    exact stops_cons (by decide) _

/-! Lines that are read. -/

namespace Statement

theorem ofLine?_indented (depth : Nat) (line : String) :
    ofLine? (indented depth line) = ofLine? line := by
  simp [ofLine?, indented]

theorem ofLine?_of_word {line : String} (first : String) (rest : List Char)
    (hfirst : IsWord first) (hrest : Stops Identifier.isWordChar rest)
    (hline : line.toList = first.toList ++ rest) (hblank : line.toList.head? ≠ some ' ') :
    ofLine? line = read? first rest := by
  have hdrop : line.toList.dropWhile (· = ' ') = line.toList := by
    cases hchars : line.toList with
    | nil => rfl
    | cons c more => simpa [hchars] using hblank
  rw [ofLine?, hdrop, hline, word_append hfirst hrest]

theorem opened?_of_ne {first : String} (h : first ≠ "class") (rest : List Char) :
    opened? first rest = none := if_neg h

theorem ofThis?_of_ne {first : String} (h : first ≠ "this") (rest : List Char) :
    ofThis? first rest = none := if_neg h

theorem ofLine?_opens {name : String} (hname : IsWord name) (base : String) :
    ofLine? ("class " ++ name ++ " extends " ++ base ++ ";") = some (.opens name) := by
  let rest := " ".toList ++ (name.toList ++ (" extends ".toList ++ (base ++ ";").toList))
  have hword : wordBehind? " " rest = some (name, _) :=
    wordBehind?_append " " hname (stops_of_ends (by decide) _)
  have hopens : opened? "class" rest = some (.opens name) := by
    simp only [opened?, if_true, hword, Option.bind_some, dropPrefix?_append, Option.map_some]
  rw [ofLine?_of_word "class" rest (by decide) (stops_of_ends (by decide) _)
    (by simp [rest]) (by simp), read?, hopens]
  rfl

/-- A line about what an instance of the class has by a name. -/
theorem ofLine?_of_this {line : String} (name : String) (rest : List Char)
    (hname : IsWord name) (hrest : Stops Identifier.isWordChar rest)
    (hline : line.toList = "this.".toList ++ (name.toList ++ rest)) :
    ofLine? line = (mapped? name rest <|> created? name rest) := by
  have hword : wordBehind? "." (".".toList ++ (name.toList ++ rest)) = some (name, rest) :=
    wordBehind?_append "." hname hrest
  have hblank : wordBehind? " " (".".toList ++ (name.toList ++ rest)) = none :=
    wordBehind?_eq_none (by simp)
  rw [ofLine?_of_word "this" (".".toList ++ (name.toList ++ rest)) (by decide)
    (stops_of_ends (by decide) _) (by simp [hline]) (by simp [hline]), read?,
    opened?_of_ne (by decide)]
  simp only [ofThis?, if_true, hword, Option.bind_some, declared?, declaredAs?, hblank,
    Option.bind_none]
  cases mapped? name rest <;> cases created? name rest <;> rfl

/-- Behind a fixed text no word is found where another one stands. -/
theorem placed?_append (kind : MemberKind) (handle : String) (index : List Nat) (offset : Nat)
    {rest : List Char} (hrest : Stops Identifier.isWordChar rest) :
    placed? kind handle ((subscripts index).toList ++
      (kind.comma.toList ++ (hexDigits offset ++ rest))) =
        some (.maps kind handle index offset) := by
  have hcomma : Stops isSubscriptChar (kind.comma.toList ++ (hexDigits offset ++ rest)) := by
    cases kind <;> exact stops_cons (by decide) _
  obtain ⟨-, hdrop⟩ := takeWhile_append_of_stops (isSubscriptChar_of_mem index) hcomma
  have hdigits : ∀ c ∈ hexDigits offset, Identifier.isWordChar c = true := by
    intro c hc
    by_contra hnot
    refine not_mem_hexDigits (fun d hd heq => hnot ?_) offset hc
    have hall : ∀ d < 16, Identifier.isWordChar (Nat.digitChar d) = true := by decide
    exact heq ▸ hall d hd
  obtain ⟨htake, -⟩ := takeWhile_append_of_stops hdigits hrest
  rw [placed?, hdrop, dropPrefix?_append, Option.bind_some, htake, ofHexDigits?_hexDigits,
    Option.map_some, readIndex_subscripts index hcomma]

theorem mapped?_append (kind : MemberKind) {handle : String} (hhandle : IsWord handle)
    (index : List Nat) (offset : Nat) {rest : List Char}
    (hrest : Stops Identifier.isWordChar rest) :
    mapped? "default_map" (kind.call.toList ++ (handle.toList ++ ((subscripts index).toList ++
      (kind.comma.toList ++ (hexDigits offset ++ rest))))) =
        some (.maps kind handle index offset) := by
  have hcomma : Stops Identifier.isWordChar (kind.comma.toList ++ (hexDigits offset ++ rest)) := by
    cases kind <;> exact stops_cons (by decide) _
  have hword := wordBehind?_append kind.call hhandle (stops_subscripts hcomma index)
  have hother (other : MemberKind) (h : other ≠ kind) (more : List Char) :
      wordBehind? other.call (kind.call.toList ++ more) = none := by
    apply wordBehind?_eq_none
    revert h
    cases other <;> cases kind <;> simp [MemberKind.call]
  have hplaced := placed?_append kind handle index offset hrest
  rw [mapped?, if_pos rfl]
  cases kind with
  | register => simp only [List.findSome?_cons, hword, Option.bind_some, hplaced]
  | block =>
    simp only [List.findSome?_cons, hother .register (by decide), hword,
      Option.bind_none, Option.bind_some, hplaced]
  | memory =>
    simp only [List.findSome?_cons, hother .register (by decide),
      hother .block (by decide), hword, Option.bind_none, Option.bind_some, hplaced]

theorem ofLine?_mapLine {m : Member} (hname : IsWord m.name) (index : List Nat) (offset : Nat) :
    ofLine? (m.mapLine ("this." ++ m.name ++ subscripts index) offset) =
      some (.maps m.kind m.name index offset) := by
  obtain ⟨rest, hrest, hline⟩ : ∃ rest, Stops Identifier.isWordChar rest ∧
      (m.mapLine ("this." ++ m.name ++ subscripts index) offset).toList =
        "this.".toList ++ ("default_map".toList ++ (m.kind.call.toList ++ (m.name.toList ++
          ((subscripts index).toList ++ (m.kind.comma.toList ++
            (hexDigits offset ++ rest)))))) := by
    unfold Member.mapLine
    cases m.kind with
    | register =>
      exact ⟨", ".toList ++ ("\"" ++ m.rights.word ++ "\");").toList, stops_of_ends (by decide) _,
        by simp [hexLiteral, MemberKind.call, MemberKind.comma]⟩
    | block =>
      exact ⟨");".toList, stops_of_ends (by decide : Ends ");") [],
        by simp [hexLiteral, MemberKind.call, MemberKind.comma]⟩
    | memory =>
      exact ⟨", ".toList ++ ("\"" ++ m.rights.word ++ "\");").toList, stops_of_ends (by decide) _,
        by simp [hexLiteral, MemberKind.call, MemberKind.comma]⟩
  have hcall : Stops Identifier.isWordChar (m.kind.call.toList ++ (m.name.toList ++
      ((subscripts index).toList ++ (m.kind.comma.toList ++ (hexDigits offset ++ rest))))) := by
    cases m.kind <;> exact stops_cons (by decide) _
  rw [ofLine?_of_this "default_map" _ (by decide) hcall hline,
    mapped?_append m.kind hname index offset hrest]
  rfl

example : ofLine? "  this.default_map.add_submap(this.bank[1][0].default_map, 'h20);" =
    some (.maps .block "bank" [1, 0] 32) := by decide

theorem created?_append {className : String} (hclass : IsWord className) (handle : String)
    {brackets : List Char} (hbrackets : ' ' ∉ brackets) (rest : List Char) :
    created? handle (brackets ++ (" = ".toList ++ (className.toList ++
      ("::type_id::create(".toList ++ rest)))) = some (.creates className handle) := by
  have hchars : ∀ c ∈ brackets, (c ≠ ' ' : Bool) = true := fun c hc =>
    decide_eq_true (ne_of_mem_of_not_mem hc hbrackets)
  have hdrop : (brackets ++ (" = ".toList ++ (className.toList ++
      ("::type_id::create(".toList ++ rest)))).dropWhile (· ≠ ' ') =
        " = ".toList ++ (className.toList ++ ("::type_id::create(".toList ++ rest)) :=
    (takeWhile_append_of_stops hchars (stops_cons (c := ' ') (by decide) _)).2
  have hword : wordBehind? " = " (" = ".toList ++ (className.toList ++
      ("::type_id::create(".toList ++ rest))) = some (className, _) :=
    wordBehind?_append " = " hclass (stops_of_ends (by decide) _)
  rw [created?, hdrop, hword, Option.bind_some]
  simp only [dropPrefix?_append, Option.map_some]

/-- Nothing is created where another argument or nothing comes behind the first blank. -/
theorem created?_eq_none {front more : List Char} (hfront : ' ' ∉ front)
    (hmore : more = [] ∨ ∃ c rest, more = ' ' :: c :: rest ∧ c ≠ '=') (handle : String) :
    created? handle (front ++ more) = none := by
  have hchars : ∀ c ∈ front, (c ≠ ' ' : Bool) = true := fun c hc =>
    decide_eq_true (ne_of_mem_of_not_mem hc hfront)
  have hstops : Stops (· ≠ ' ') more := by
    rcases hmore with rfl | ⟨c, rest, rfl, _⟩
    · simp [Stops]
    · exact stops_cons (by decide) _
  have hword : wordBehind? " = " more = none := by
    apply wordBehind?_eq_none
    rcases hmore with rfl | ⟨c, rest, rfl, hc⟩
    · simp
    · simp [hc.symm]
  rw [created?, (takeWhile_append_of_stops hchars hstops).2, hword, Option.bind_none]

/-- Nothing is created where the value of a function is assigned. -/
theorem created?_function {name : String} (hname : IsWord name) (handle : String)
    (rest : List Char) :
    created? handle (" = ".toList ++ (name.toList ++ ("(".toList ++ rest))) = none := by
  have hword : wordBehind? " = " (" = ".toList ++ (name.toList ++ ("(".toList ++ rest))) =
      some (name, "(".toList ++ rest) :=
    wordBehind?_append " = " hname (stops_of_ends (by decide) _)
  have hdrop : (" = ".toList ++ (name.toList ++ ("(".toList ++ rest))).dropWhile (· ≠ ' ') =
      " = ".toList ++ (name.toList ++ ("(".toList ++ rest)) := by
    simp
  have hcall : ¬ "::type_id::create(".toList <+: "(".toList ++ rest := by simp
  simp only [created?, hdrop, hword, Option.bind_some, dropPrefix?_eq_none hcall, Option.map_none]

/-- No instance is mapped where an assignment or another call stands. -/
theorem mapped?_eq_none {rest : List Char} (h : ¬ ".add_".toList <+: rest) (receiver : String) :
    mapped? receiver rest = none := by
  have hcall (kind : MemberKind) : wordBehind? kind.call rest = none := by
    refine wordBehind?_eq_none fun hprefix => h (List.IsPrefix.trans ?_ hprefix)
    cases kind <;> decide
  simp [mapped?, hcall]

theorem declaredAs?_append {handle : String} (hhandle : IsWord handle) (className : String)
    (index : List Nat) :
    declaredAs? className (" ".toList ++ (handle.toList ++ ((subscripts index).toList ++ [';']))) =
      some (.declares className handle index) := by
  have hend : Stops isSubscriptChar [';'] := stops_cons (by decide) []
  have hword := wordBehind?_append " " hhandle
    (stops_subscripts (stops_cons (c := ';') (by decide) []) index)
  obtain ⟨-, hdrop⟩ := takeWhile_append_of_stops (isSubscriptChar_of_mem index) hend
  simp only [declaredAs?, hword, Option.bind_some, hdrop, readIndex_subscripts index hend, if_true]

/-- A handle that takes part in randomizing. -/
theorem ofLine?_rand {className handle : String} (hclass : IsWord className)
    (hhandle : IsWord handle) (index : List Nat) :
    ofLine? ("rand " ++ className ++ " " ++ handle ++ subscripts index ++ ";") =
      some (.declares className handle index) := by
  let rest := " ".toList ++ (handle.toList ++ ((subscripts index).toList ++ [';']))
  have hword : wordBehind? " " (" ".toList ++ (className.toList ++ rest)) =
      some (className, rest) :=
    wordBehind?_append " " hclass (stops_of_ends (by decide) _)
  have hrand : declaredAs? "rand" (" ".toList ++ (className.toList ++ rest)) = none := by
    simp only [declaredAs?, hword, Option.bind_some]
    simp [rest, isSubscriptChar]
  rw [ofLine?_of_word "rand" (" ".toList ++ (className.toList ++ rest)) (by decide)
    (stops_of_ends (by decide) _) (by simp [rest]) (by simp), read?,
    opened?_of_ne (by decide), ofThis?_of_ne (by decide), declared?, hrand]
  simp only [if_true, hword, Option.bind_some]
  exact declaredAs?_append hhandle className index

/-- A handle that does not. -/
theorem ofLine?_plain {className handle : String} (hclass : IsWord className)
    (hne : className.toList ≠ []) (hhandle : IsWord handle) (index : List Nat) :
    ofLine? (className ++ " " ++ handle ++ subscripts index ++ ";") =
      some (.declares className handle index) := by
  let rest := " ".toList ++ (handle.toList ++ ((subscripts index).toList ++ [';']))
  have hword : wordBehind? " " rest = some (handle, (subscripts index).toList ++ [';']) :=
    wordBehind?_append " " hhandle (stops_subscripts (stops_cons (by decide) []) index)
  have hopened : opened? className rest = none := by
    have hextends : ((subscripts index).toList ++ [';']).dropPrefix? " extends ".toList = none := by
      cases index <;> simp [subscripts, List.dropPrefix?]
    simp only [opened?, hword, Option.bind_some, hextends, Option.map_none, ite_self]
  have hthis : ofThis? className rest = none := by
    have hdot : wordBehind? "." rest = none := wordBehind?_eq_none (by simp [rest])
    simp only [ofThis?, hdot, Option.bind_none, ite_self]
  have hblank : (className ++ " " ++ handle ++ subscripts index ++ ";").toList.head? ≠
      some ' ' := by
    obtain ⟨c, more, hchars⟩ := List.exists_cons_of_ne_nil hne
    have hc := hclass c (hchars ▸ List.mem_cons_self)
    simp only [String.toList_append, hchars, List.cons_append, List.head?_cons, ne_eq,
      Option.some.injEq]
    rintro rfl
    cases hc
  rw [ofLine?_of_word className rest hclass (stops_of_ends (by decide) _)
    (by simp [rest]) hblank, read?, hopened, hthis, declared?, declaredAs?_append hhandle]
  rfl

/-! Lines that say nothing of this kind. -/

theorem ofLine?_eq_none {line : String} (first : String) (rest : List Char)
    (hfirst : IsWord first) (hthis : first ≠ "this") (hrest : Stops Identifier.isWordChar rest)
    (hblank : ¬ " ".toList <+: rest) (hline : line.toList = first.toList ++ rest)
    (hhead : line.toList.head? ≠ some ' ') : ofLine? line = none := by
  have hword : wordBehind? " " rest = none := wordBehind?_eq_none hblank
  rw [ofLine?_of_word first rest hfirst hrest hline hhead, read?, ofThis?_of_ne hthis]
  simp only [opened?, declared?, declaredAs?, hword, Option.bind_none, ite_self]
  rfl

/-- A keyword and a call, or a loop. -/
theorem ofLine?_keyword {line : String} (first name : String) (rest : List Char)
    (hfirst : IsWord first) (hkeyword : first ∉ ["class", "this", "rand"]) (hname : IsWord name)
    (hline : line.toList = first.toList ++ (" ".toList ++ (name.toList ++ ("(".toList ++ rest))))
    (hhead : line.toList.head? ≠ some ' ') : ofLine? line = none := by
  simp only [List.mem_cons, List.not_mem_nil, or_false, not_or] at hkeyword
  obtain ⟨hclass, hthis, hrand⟩ := hkeyword
  have hword : wordBehind? " " (" ".toList ++ (name.toList ++ ("(".toList ++ rest))) =
      some (name, "(".toList ++ rest) :=
    wordBehind?_append " " hname (stops_of_ends (by decide) _)
  have hdeclared : declaredAs? first (" ".toList ++ (name.toList ++ ("(".toList ++ rest))) =
      none := by
    simp only [declaredAs?, hword, Option.bind_some]
    simp [isSubscriptChar]
  rw [ofLine?_of_word first _ hfirst (stops_of_ends (by decide) _) hline hhead, read?,
    opened?_of_ne hclass, ofThis?_of_ne hthis, declared?, hdeclared, if_neg hrand]
  rfl

end Statement

end RegisterMap.Uvm
