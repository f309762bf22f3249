import Mathlib.Data.List.TakeWhile
import RegisterMap.Proofs.Text.Split

/-!
The lines of a text, and the runs that they come in. A run is taken as far as it goes, and
the runs of a list are found in one pass over it that remembers only whether the element
before was in one. What stands between the occurrences of a separator is such runs, with
nothing between separators that follow each other.
-/

namespace RegisterMap.Text

/-- A line without the carriage return in front of its end. -/
def withoutReturn (line : List Char) : List Char :=
  if line.getLast? = some '\r' then line.dropLast else line

/-- The lines among the pieces of a text. What is behind the last line end is a line only if
there is something. -/
def linesOfPieces : List (List Char) → List (List Char)
  | [] => []
  | [last] => if last = [] then [] else [last]
  | piece :: pieces => withoutReturn piece :: linesOfPieces pieces

/-- The lines of a text, without their ends. -/
def lines (cs : List Char) : List (List Char) := linesOfPieces (splitAt '\n' cs)

theorem mem_of_mem_withoutReturn {line : List Char} {c : Char} (h : c ∈ withoutReturn line) :
    c ∈ line := by
  unfold withoutReturn at h
  split at h
  · exact (List.dropLast_prefix line).mem h
  · exact h

theorem forall_mem_linesOfPieces {pieces : List (List Char)} (h : ∀ piece ∈ pieces, '\n' ∉ piece) :
    ∀ line ∈ linesOfPieces pieces, '\n' ∉ line := by
  induction pieces with
  | nil => simp [linesOfPieces]
  | cons piece rest ih =>
    obtain ⟨hpiece, hrest⟩ := List.forall_mem_cons.1 h
    cases rest with
    | nil =>
      unfold linesOfPieces
      split
      · simp
      · simpa using hpiece
    | cons next more =>
      rw [linesOfPieces]
      exact List.forall_mem_cons.2
        ⟨fun hline => hpiece (mem_of_mem_withoutReturn hline), ih hrest⟩
      exact List.cons_ne_nil next more

theorem not_mem_of_mem_lines (cs : List Char) : ∀ line ∈ lines cs, '\n' ∉ line :=
  forall_mem_linesOfPieces not_mem_of_mem_splitAt

/-! White space at the end of a line. -/

theorem trim_concat {c : Char} (hc : isBlank c = true) (cs : List Char) :
    trim (cs ++ [c]) = trim cs := by
  unfold trim
  rw [List.dropWhile_append]
  split
  · next hfront =>
    rw [List.isEmpty_iff.1 hfront, List.dropWhile_cons_of_pos hc]
    rfl
  · rw [List.reverse_append, List.reverse_singleton, List.singleton_append,
      List.dropWhile_cons_of_pos hc]

theorem trim_withoutReturn (line : List Char) : trim (withoutReturn line) = trim line := by
  unfold withoutReturn
  split
  · next hlast =>
    obtain ⟨front, rfl⟩ := List.getLast?_eq_some_iff.1 hlast
    rw [List.dropLast_concat, trim_concat (by decide)]
  · rfl

theorem mem_of_mem_trim {cs : List Char} {c : Char} (h : c ∈ trim cs) : c ∈ cs := by
  have hback := (List.dropWhile_suffix isBlank).mem (List.mem_reverse.1 h)
  exact (List.dropWhile_suffix isBlank).mem (List.mem_reverse.1 hback)

/-- Trimmed, the pieces of a text are its lines, but for an empty one at the end. -/
theorem map_trim_linesOfPieces (pieces : List (List Char)) :
    pieces.map trim = (linesOfPieces pieces).map trim ∨
      pieces.map trim = (linesOfPieces pieces).map trim ++ [[]] := by
  induction pieces with
  | nil => exact Or.inl rfl
  | cons piece rest ih =>
    cases rest with
    | nil =>
      unfold linesOfPieces
      split
      · next hempty =>
        subst hempty
        exact Or.inr rfl
      · exact Or.inl rfl
    | cons next more =>
      have hlines : (linesOfPieces (piece :: next :: more)).map trim =
          trim piece :: (linesOfPieces (next :: more)).map trim := by
        rw [linesOfPieces, List.map_cons, trim_withoutReturn]
        exact List.cons_ne_nil next more
      rw [hlines, List.map_cons]
      exact ih.imp (congrArg (trim piece :: ·)) (congrArg (trim piece :: ·))

/-! Runs. -/

section

variable {α β : Type} {p : α → Bool} {xs run : List α} {start : Nat}

/-- Elements next to each other that have a property, beginning at a place of a list, with
none beside them that has it. -/
structure IsMaximalRun (p : α → Bool) (xs : List α) (start : Nat) (run : List α) : Prop where
  here : run <+: xs.drop start
  ne_nil : run ≠ []
  forall_mem : ∀ x ∈ run, p x = true
  before : ∀ i x, start = i + 1 → xs[i]? = some x → p x = false
  behind : ∀ x, xs[start + run.length]? = some x → p x = false

theorem isMaximalRun_zero_iff :
    IsMaximalRun p xs 0 run ↔ run = xs.takeWhile p ∧ run ≠ [] := by
  constructor
  · rintro ⟨⟨rest, heq⟩, hne, hall, _, hbehind⟩
    obtain rfl : run ++ rest = xs := heq
    have hrest : rest.takeWhile p = [] := by
      cases rest with
      | nil => rfl
      | cons x more =>
        have hx : p x = false := hbehind x (by simp)
        exact List.takeWhile_cons_of_neg (by simp [hx])
    rw [List.takeWhile_append_of_pos hall, hrest, List.append_nil]
    exact ⟨rfl, hne⟩
  · rintro ⟨rfl, hne⟩
    refine ⟨List.takeWhile_prefix p, hne, fun x => List.mem_takeWhile_imp, fun i x hi => ?_,
      fun x hx => ?_⟩
    · cases hi
    · have hsplit : xs = xs.takeWhile p ++ xs.dropWhile p := List.takeWhile_append_dropWhile.symm
      rw [hsplit, Nat.zero_add, List.getElem?_append_right (by simp [← hsplit])] at hx
      have hhead : (xs.dropWhile p).head? = some x := by
        simpa [← hsplit, List.head?_eq_getElem?] using hx
      simpa [hhead] using List.head?_dropWhile_not p xs

theorem isMaximalRun_succ_iff {x : α} :
    IsMaximalRun p (x :: xs) (start + 1) run ↔
      IsMaximalRun p xs start run ∧ (start = 0 → p x = false) := by
  have hplace : start + 1 + run.length = start + run.length + 1 := by omega
  constructor
  · rintro ⟨hhere, hne, hall, hbefore, hbehind⟩
    rw [hplace] at hbehind
    refine ⟨⟨hhere, hne, hall, fun i y hi hy => ?_, hbehind⟩, fun hstart => ?_⟩
    · exact hbefore (i + 1) y (by omega) hy
    · exact hbefore 0 x (by omega) rfl
  · rintro ⟨⟨hhere, hne, hall, hbefore, hbehind⟩, hfirst⟩
    refine ⟨hhere, hne, hall, fun i y hi hy => ?_, ?_⟩
    · cases i with
      | zero =>
        cases hy
        exact hfirst (by omega)
      | succ i => exact hbefore i y (by omega) hy
    · rw [hplace]
      exact hbehind

/-- The runs of what is left of a list, with the places they begin at. An element just behind
one that is in a run begins none. -/
def runsBehind (p : α → Bool) : Bool → List α → List (Nat × List α)
  | _, [] => []
  | inRun, x :: rest =>
    (if p x && !inRun then [(0, (x :: rest).takeWhile p)] else []) ++
      (runsBehind p (p x) rest).map fun run => (run.1 + 1, run.2)

theorem mem_runsBehind_iff {inRun : Bool} :
    (start, run) ∈ runsBehind p inRun xs ↔
      IsMaximalRun p xs start run ∧ (start = 0 → inRun = false) := by
  induction xs generalizing inRun start with
  | nil =>
    have hnone : ¬ IsMaximalRun p ([] : List α) start run := by
      rintro ⟨hhere, hne, _, _, _⟩
      rw [List.drop_nil] at hhere
      exact hne (List.prefix_nil.1 hhere)
    simp [runsBehind, hnone]
  | cons x rest ih =>
    rw [runsBehind, List.mem_append, List.mem_map]
    cases start with
    | zero =>
      rw [isMaximalRun_zero_iff]
      cases hx : p x with
      | false => simp [hx]
      | true =>
        have hne (h : run = x :: rest.takeWhile p) : run ≠ [] := h ▸ List.cons_ne_nil _ _
        cases inRun with
        | false => simpa [hx] using hne
        | true => simp
    | succ start =>
      rw [isMaximalRun_succ_iff, ← ih]
      simp

theorem pairwise_runsBehind (p : α → Bool) (inRun : Bool) (xs : List α) :
    (runsBehind p inRun xs).Pairwise fun a b => a.1 < b.1 := by
  induction xs generalizing inRun with
  | nil => exact .nil
  | cons x rest ih =>
    rw [runsBehind, List.pairwise_append]
    refine ⟨?_, ?_, fun a ha b hb => ?_⟩
    · split
      · exact List.pairwise_singleton _ _
      · exact .nil
    · exact List.pairwise_map.2 ((ih (p x)).imp Nat.succ_lt_succ)
    · obtain ⟨run, _, rfl⟩ := List.mem_map.1 hb
      split at ha
      · obtain rfl := List.mem_singleton.1 ha
        exact Nat.succ_pos _
      · cases ha

/-- What a list begins with makes a run, unless it goes on one that is in front. -/
theorem runsBehind_false (p : α → Bool) (xs : List α) :
    runsBehind p false xs =
      (if (xs.takeWhile p).isEmpty then [] else [(0, xs.takeWhile p)]) ++
        runsBehind p true xs := by
  cases xs with
  | nil => rfl
  | cons x rest => cases hx : p x <;> simp [runsBehind, hx]

/-- The pieces behind the first separator that are not empty are the runs that the list does
not begin with. -/
theorem exists_splitAt_map [DecidableEq β] {f : α → β} {sep : β}
    (h : ∀ x, f x = sep ↔ p x = false) (xs : List α) :
    ∃ pieces, splitAt sep (xs.map f) = (xs.takeWhile p).map f :: pieces ∧
      (pieces.filter fun piece => !piece.isEmpty) =
        (runsBehind p true xs).map fun run => run.2.map f := by
  -- What the rest begins with is a run of its own only behind a separator.
  induction xs with
  | nil => exact ⟨[], rfl, rfl⟩
  | cons x rest ih =>
    obtain ⟨pieces, hsplit, hpieces⟩ := ih
    rw [List.map_cons, splitAt, hsplit]
    cases hx : p x with
    | true =>
      have hsep : f x ≠ sep := by simp [h, hx]
      refine ⟨pieces, ?_, ?_⟩
      · simp [hsep, hx]
      · simp [runsBehind, hx, hpieces, Function.comp_def]
    | false =>
      refine ⟨(rest.takeWhile p).map f :: pieces, ?_, ?_⟩
      · simp [(h x).2 hx, hx]
      · rw [List.filter_cons, hpieces, runsBehind, hx, runsBehind_false]
        cases rest.takeWhile p <;> simp [Function.comp_def]

/-- The pieces of a list that are not empty are its runs of what is no separator. -/
theorem filter_splitAt_map [DecidableEq β] {f : α → β} {sep : β}
    (h : ∀ x, f x = sep ↔ p x = false) (xs : List α) :
    ((splitAt sep (xs.map f)).filter fun piece => !piece.isEmpty) =
      (runsBehind p false xs).map fun run => run.2.map f := by
  obtain ⟨pieces, hsplit, hpieces⟩ := exists_splitAt_map h xs
  rw [hsplit, List.filter_cons, hpieces, runsBehind_false]
  cases xs.takeWhile p <;> simp

end

end RegisterMap.Text
