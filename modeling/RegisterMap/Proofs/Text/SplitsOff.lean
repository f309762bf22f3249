import Mathlib.Tactic.Common
import RegisterMap.Proofs.Json.RoundTrip
import RegisterMap.Text.Blank

/-!
Texts that show where they end. What is written for a value splits off if it can be told
from what follows it, given only that what follows cannot go on with it; then different
values have different texts, and a row of values between separators does so too.
-/

namespace RegisterMap.Text

variable {α β : Type}

/-- From the text of a value with something behind it the value and what stands behind are
told, if that is of a kind that ends the text. -/
def SplitsOff (ends : List Char → Prop) (text : α → List Char) (a : α) : Prop :=
  ∀ b r s, ends r → ends s → text a ++ r = text b ++ s → a = b ∧ r = s

/-- What stands behind some characters does not start with one of them. -/
def Stops (belongs : Char → Bool) (rest : List Char) : Prop :=
  ∀ c, rest.head? = some c → belongs c = false

variable {belongs : Char → Bool} {r s : List Char}

theorem stops_cons {c : Char} (h : belongs c = false) (rest : List Char) :
    Stops belongs (c :: rest) := by
  intro d hd
  obtain rfl : c = d := by simpa using hd
  exact h

/-- Characters of one kind end where another one stands. -/
theorem append_cancel_of_stops {cs ds : List Char} (hcs : ∀ c ∈ cs, belongs c = true)
    (hds : ∀ d ∈ ds, belongs d = true) (hr : Stops belongs r) (hs : Stops belongs s)
    (h : cs ++ r = ds ++ s) : cs = ds ∧ r = s := by
  induction cs generalizing ds with
  | nil =>
    cases ds with
    | nil => exact ⟨rfl, h⟩
    | cons d more =>
      have hfalse := hr d (by rw [show r = d :: (more ++ s) from h, List.head?_cons])
      rw [hds d List.mem_cons_self] at hfalse
      cases hfalse
  | cons c rest ih =>
    cases ds with
    | nil =>
      have hfalse := hs c (by rw [← show c :: (rest ++ r) = s from h, List.head?_cons])
      rw [hcs c List.mem_cons_self] at hfalse
      cases hfalse
    | cons d more =>
      obtain ⟨rfl, htail⟩ := List.cons.inj h
      obtain ⟨rfl, hrest⟩ := ih (fun c' h' => hcs c' (List.mem_cons_of_mem _ h'))
        (fun d' h' => hds d' (List.mem_cons_of_mem _ h')) htail
      exact ⟨rfl, hrest⟩

/-- What is taken from a text while its characters are of one kind. -/
theorem takeWhile_append_of_stops {front rest : List Char}
    (hfront : ∀ c ∈ front, belongs c = true) (hrest : Stops belongs rest) :
    (front ++ rest).takeWhile belongs = front ∧ (front ++ rest).dropWhile belongs = rest := by
  rw [List.takeWhile_append_of_pos hfront, List.dropWhile_append_of_pos hfront]
  cases rest with
  | nil => simp
  | cons c more => simp [hrest c rfl]

theorem splitsOff_decimal (n : Nat) :
    SplitsOff (Stops Char.isDigit) (fun n : Nat => (toString n).toList) n := by
  intro m r s hr hs h
  obtain ⟨htext, hrest⟩ :=
    append_cancel_of_stops (isDigit_of_mem_toString n) (isDigit_of_mem_toString m) hr hs h
  refine ⟨?_, hrest⟩
  rw [← ofDecimal_toString n, String.toList_inj.1 htext, ofDecimal_toString]

/-- A quoted string ends at its closing mark, whatever follows. -/
theorem splitsOff_quote (t : String) :
    SplitsOff (fun _ => True) (fun t : String => (Json.quote t).toList) t := by
  intro u r s _ _ h
  have hchars (t : String) (rest : List Char) : (Json.quote t).toList ++ rest =
      '"' :: (t.toList.flatMap Json.stringChar ++ '"' :: rest) := by
    simp [Json.quote]
  have hread : Json.readString [] (t.toList.flatMap Json.stringChar ++ '"' :: r) =
      Json.readString [] (u.toList.flatMap Json.stringChar ++ '"' :: s) := by
    rw [(List.cons.inj ((hchars t r).symm.trans (h.trans (hchars u s)))).2]
  rw [Json.readString_quoted, Json.readString_quoted] at hread
  obtain ⟨hunits, hrest⟩ := Prod.mk.inj (Option.some.inj hread)
  rw [List.reverse_nil, List.nil_append, List.nil_append,
    List.map_inj_right fun _ _ => Json.Unit16.char.inj] at hunits
  exact ⟨String.toList_inj.1 hunits, hrest⟩

/-- Behind the first text each text has a separator in front of it. -/
theorem joinWith_map_cons (sep : Char) (text : α → List Char) (a : α) (items : List α) :
    joinWith sep ((a :: items).map text) = text a ++ items.flatMap fun b => sep :: text b := by
  induction items generalizing a with
  | nil => simp [joinWith]
  | cons b rest ih =>
    rw [List.map_cons, List.map_cons, joinWith, ← List.map_cons, ih, List.flatMap_cons,
      List.cons_append]
    exact List.cons_ne_nil _ _

section

variable {ends : List Char → Prop} {text : α → List Char} {close : Char} {items others : List α}

theorem ends_separated (hcomma : ∀ rest, ends (',' :: rest))
    (hclose : ∀ rest, ends (close :: rest)) (items : List α) (rest : List Char) :
    ends ((items.flatMap fun a => ',' :: text a) ++ close :: rest) := by
  cases items with
  | nil => exact hclose rest
  | cons a more =>
    rw [List.flatMap_cons, List.cons_append, List.cons_append]
    exact hcomma _

/-- Items behind separators, up to a closing character. -/
theorem flatMap_separated_cancel (hcomma : ∀ rest, ends (',' :: rest))
    (hclose : ∀ rest, ends (close :: rest)) (hne : close ≠ ',')
    (hitems : ∀ a ∈ items, SplitsOff ends text a)
    (h : (items.flatMap fun a => ',' :: text a) ++ close :: r =
      (others.flatMap fun a => ',' :: text a) ++ close :: s) : items = others ∧ r = s := by
  induction items generalizing others with
  | nil =>
    cases others with
    | nil => exact ⟨rfl, (List.cons.inj h).2⟩
    | cons b more => exact absurd (List.cons.inj h).1 hne
  | cons a rest ih =>
    cases others with
    | nil => exact absurd (List.cons.inj h).1.symm hne
    | cons b more =>
      obtain ⟨ha, hrest⟩ := List.forall_mem_cons.1 hitems
      simp only [List.flatMap_cons, List.cons_append, List.cons.injEq, true_and,
        List.append_assoc] at h
      obtain ⟨rfl, htail⟩ := ha b _ _ (ends_separated hcomma hclose rest r)
        (ends_separated hcomma hclose more s) h
      obtain ⟨rfl, hbehind⟩ := ih hrest htail
      exact ⟨rfl, hbehind⟩

/-- A row of texts up to a closing character shows where it ends, and all its items: none of
the texts starts with that character. -/
theorem joinWith_cancel (hcomma : ∀ rest, ends (',' :: rest))
    (hclose : ∀ rest, ends (close :: rest)) (hne : close ≠ ',')
    (hfirst : ∀ a rest, (text a ++ rest).head? ≠ some close)
    (hitems : ∀ a ∈ items, SplitsOff ends text a)
    (h : joinWith ',' (items.map text) ++ close :: r =
      joinWith ',' (others.map text) ++ close :: s) : items = others ∧ r = s := by
  have hhead (a : α) (more : List α) (rest rest' : List Char) :
      joinWith ',' ((a :: more).map text) ++ rest ≠ close :: rest' := by
    intro h
    rw [joinWith_map_cons, List.append_assoc] at h
    exact hfirst a _ (congrArg List.head? h)
  cases items with
  | nil =>
    cases others with
    | nil => exact ⟨rfl, (List.cons.inj h).2⟩
    | cons b more => exact absurd h.symm (hhead b more _ _)
  | cons a rest =>
    cases others with
    | nil => exact absurd h (hhead a rest _ _)
    | cons b more =>
      obtain ⟨ha, hrest⟩ := List.forall_mem_cons.1 hitems
      rw [joinWith_map_cons, joinWith_map_cons, List.append_assoc, List.append_assoc] at h
      obtain ⟨rfl, htail⟩ := ha b _ _ (ends_separated hcomma hclose rest r)
        (ends_separated hcomma hclose more s) h
      obtain ⟨rfl, hbehind⟩ := flatMap_separated_cancel hcomma hclose hne hrest htail
      exact ⟨rfl, hbehind⟩

end

end RegisterMap.Text
