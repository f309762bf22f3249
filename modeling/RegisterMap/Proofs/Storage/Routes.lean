import RegisterMap.FileSet
import RegisterMap.Proofs.Path
import RegisterMap.Proofs.Storage.Walk
import RegisterMap.Proofs.Text.Split

/-!
The routes of paths that are made of others. A path continued by another one goes on where
it ends; the path around it is a beginning of it. A path of names only goes down them, and
paths of names that are told apart by their components have different names.
-/

namespace RegisterMap

open Text (splitAt joinWith)

namespace Path

variable {p q : Path}

/-- The pieces of a text with another one behind it. -/
theorem filter_splitAt_slash (cs ds : List Char) :
    (splitAt '/' (cs ++ '/' :: ds)).filter (!·.isEmpty) =
      (splitAt '/' cs).filter (!·.isEmpty) ++ (splitAt '/' ds).filter (!·.isEmpty) := by
  rw [Text.splitAt_append_sep, List.filter_append]

theorem route_of_isEmpty (h : p.text.isEmpty = true) : p.route = [] := by
  have htext : p.text = "" := String.isEmpty_iff.1 h
  rw [route, pieces, htext]
  rfl

theorem route_join (hq : q.isAbsolute = false) : (p.join q).route = p.route ++ q.route := by
  unfold join
  rw [hq, Bool.false_or]
  split
  case isTrue hempty => rw [route_of_isEmpty hempty, List.nil_append]
  case isFalse =>
    split
    case isTrue hslash =>
      obtain ⟨front, hfront⟩ : ∃ front, p.text.toList = front ++ ['/'] := by
        rw [endsInSlash, beq_iff_eq] at hslash
        exact List.getLast?_eq_some_iff.1 hslash
      have hp : p.route = (splitAt '/' front).filter (!·.isEmpty) := by
        rw [route, pieces, hfront, filter_splitAt_slash]
        simp [splitAt]
      rw [hp, route, pieces, String.toList_append, hfront, List.append_assoc,
        List.singleton_append, filter_splitAt_slash]
      rfl
    case isFalse =>
      have htext : (p.text ++ "/" ++ q.text).toList = p.text.toList ++ '/' :: q.text.toList := by
        simp
      rw [route, pieces, htext, filter_splitAt_slash]
      rfl

theorem isAbsolute_join (hq : q.isAbsolute = false) : (p.join q).isAbsolute = p.isAbsolute := by
  unfold join
  rw [hq, Bool.false_or]
  split
  case isTrue hempty =>
    have htext : p.text = "" := String.isEmpty_iff.1 hempty
    rw [hq, isAbsolute, htext]
    rfl
  case isFalse hempty =>
    have hne : p.text.toList ≠ [] :=
      fun h => hempty (String.isEmpty_iff.2 (String.toList_eq_nil_iff.1 h))
    obtain ⟨c, more, hcons⟩ := List.exists_cons_of_ne_nil hne
    split <;> simp [isAbsolute, hcons]

theorem start_join (hq : q.isAbsolute = false) : (p.join q).start = p.start := by
  rw [start, start, isAbsolute_join hq]

/-! Components. -/

/-- The pieces that count from a position on, behind the first. -/
theorem map_snd_counting (pieces : List (List Char)) {first : Nat} (hfirst : first ≠ 0) :
    ((pieces.zipIdx first).filterMap fun (piece, position) =>
      if counts position piece then some (position, piece) else none).map (·.2) =
        (pieces.filter (!·.isEmpty)).filter (· != ['.']) := by
  induction pieces generalizing first with
  | nil => rfl
  | cons piece rest ih =>
    have hzero : (first == 0) = false := beq_eq_false_iff_ne.2 hfirst
    have hcounts : counts first piece = (!piece.isEmpty && piece != ['.']) := by
      rw [counts, hzero, Bool.or_false]
    have hrest := ih first.succ_ne_zero
    rw [List.zipIdx_cons, List.filter_filter]
    rw [List.filter_filter] at hrest
    cases hcount : counts first piece with
    | false =>
      rw [hcount] at hcounts
      rw [List.filterMap_cons_none (by simp [hcount]), hrest, List.filter_cons_of_neg]
      rw [Bool.and_comm, ← hcounts]
      exact Bool.false_ne_true
    | true =>
      rw [hcount] at hcounts
      rw [List.filterMap_cons_some (show _ = some (first, piece) by simp [hcount]),
        List.map_cons, hrest, List.filter_cons_of_pos]
      rw [Bool.and_comm, ← hcounts]

/-- All pieces of a route count but dots, of which the first may count. -/
theorem map_snd_countingPieces (p : Path) :
    p.countingPieces.map (·.2) =
      (if p.pieces.head? = some ['.'] then [['.']] else []) ++ p.route.filter (· != ['.']) := by
  obtain ⟨first, rest, hpieces⟩ :=
    List.exists_cons_of_ne_nil (Text.splitAt_ne_nil '/' p.text.toList)
  have hrest := map_snd_counting rest Nat.one_ne_zero
  rw [countingPieces, route, pieces, hpieces, List.zipIdx_cons, List.head?_cons]
  by_cases hempty : first = []
  · subst hempty
    rw [List.filterMap_cons_none (by simp [counts])]
    simpa using hrest
  · have hcount : counts 0 first = true := by simp [counts, hempty]
    rw [List.filterMap_cons_some (show _ = some (0, first) by simp [hcount]), List.map_cons, hrest]
    by_cases hdot : first = ['.'] <;> simp [hdot, hempty]

theorem components_eq (p : Path) :
    p.components = (if p.isAbsolute then [.root] else []) ++
      ((if p.pieces.head? = some ['.'] then [.current] else []) ++
        (p.route.filter (· != ['.'])).map Component.ofPiece) := by
  have hmap : p.countingPieces.map (fun piece => Component.ofPiece piece.2) =
      (p.countingPieces.map (·.2)).map Component.ofPiece := by rw [List.map_map]; rfl
  rw [components, hmap, map_snd_countingPieces, List.map_append]
  split_ifs <;> rfl

theorem ofPiece_mem_components {piece : List Char} (h : piece ∈ p.route) (hdot : piece ≠ ['.']) :
    Component.ofPiece piece ∈ p.components := by
  rw [components_eq]
  refine List.mem_append_right _ (List.mem_append_right _ (List.mem_map_of_mem ?_))
  exact List.mem_filter.2 ⟨h, bne_iff_ne.2 hdot⟩

/-- All components are names. -/
def IsNormal (p : Path) : Prop := ∀ c ∈ p.components, ∃ name, c = .named name

theorem IsNormal.isAbsolute (h : p.IsNormal) : p.isAbsolute = false := by
  by_contra habsolute
  have hroot : Component.root ∈ p.components := by
    rw [components_eq, if_pos (by simpa using habsolute)]
    exact List.mem_append_left _ List.mem_cons_self
  obtain ⟨name, hname⟩ := h _ hroot
  cases hname

theorem IsNormal.up_not_mem (h : p.IsNormal) : ['.', '.'] ∉ p.route := by
  intro hup
  obtain ⟨name, hname⟩ := h _ (ofPiece_mem_components hup (by decide))
  cases hname

theorem IsNormal.components_eq (h : p.IsNormal) :
    p.components = (namesOf p.route).map .named := by
  have hcurrent : p.pieces.head? ≠ some ['.'] := by
    intro hhead
    have hcurrent : Component.current ∈ p.components := by
      rw [Path.components_eq, if_pos hhead]
      exact List.mem_append_right _ (List.mem_append_left _ List.mem_cons_self)
    obtain ⟨name, hname⟩ := h _ hcurrent
    cases hname
  rw [Path.components_eq, h.isAbsolute, if_neg Bool.false_ne_true, if_neg hcurrent,
    List.nil_append, List.nil_append, namesOf, List.map_map]
  refine List.map_congr_left fun piece hpiece => ?_
  obtain ⟨hroute, hdot⟩ := List.mem_filter.1 hpiece
  rw [Component.ofPiece, if_neg (bne_iff_ne.1 hdot),
    if_neg fun hup => h.up_not_mem (by rwa [hup] at hroute)]
  rfl

/-- Normal paths that are told apart have different names. -/
theorem IsNormal.namesOf_ne (hp : p.IsNormal) (hq : q.IsNormal) (h : order p q ≠ .eq) :
    namesOf p.route ≠ namesOf q.route := by
  intro hnames
  refine h ?_
  have hcomponents : p.components = q.components := by
    rw [hp.components_eq, hq.components_eq, hnames]
  rw [order, compareOn, hcomponents]
  exact Std.ReflCmp.compare_self

/-! The path around another. -/

theorem isAbsolute_iff (p : Path) :
    p.isAbsolute = true ↔ ∃ rest, rest ≠ [] ∧ p.pieces = [] :: rest := by
  rw [isAbsolute, pieces]
  cases p.text.toList with
  | nil => simp [splitAt]
  | cons c more =>
    obtain ⟨first, others, hsplit⟩ := List.exists_cons_of_ne_nil (Text.splitAt_ne_nil '/' more)
    rw [splitAt]
    by_cases hc : c = '/'
    · simp [hc, hsplit]
    · simp [hc, hsplit]

theorem pairwise_countingPieces (p : Path) :
    p.countingPieces.Pairwise fun a b => a.1 < b.1 := by
  have hindexes : p.pieces.zipIdx.Pairwise fun a b => a.2 < b.2 := by
    rw [← List.pairwise_map, List.zipIdx_map_snd]
    exact List.pairwise_lt_range'
  rw [countingPieces, List.pairwise_filterMap]
  refine hindexes.imp fun {a b} hlt x hx y hy => ?_
  obtain ⟨_, hx⟩ := Option.ite_none_right_eq_some.1 hx
  obtain ⟨_, hy⟩ := Option.ite_none_right_eq_some.1 hy
  rw [← Option.some.inj hx, ← Option.some.inj hy]
  exact hlt

theorem pieces_joinWith_take (p : Path) (position : Nat) :
    pieces ⟨String.ofList (joinWith '/' (p.pieces.take (position + 1)))⟩ =
      p.pieces.take (position + 1) := by
  rw [pieces, String.toList_ofList]
  refine Text.splitAt_joinWith ?_ fun piece hpiece => ?_
  · have hne := Text.splitAt_ne_nil '/' p.text.toList
    simpa [pieces] using hne
  · exact Text.not_mem_of_mem_splitAt piece (List.mem_of_mem_take hpiece)

/-- The first pieces up to one that is not empty start where all pieces do. -/
theorem isAbsolute_eq_of_pieces_eq_take {position : Nat} {found : List Char}
    (hpieces : q.pieces = p.pieces.take (position + 1))
    (hfound : p.pieces[position]? = some found) (hne : found ≠ []) :
    q.isAbsolute = p.isAbsolute := by
  rw [Bool.eq_iff_iff, isAbsolute_iff, isAbsolute_iff, hpieces]
  constructor
  · rintro ⟨rest, hrest, htake⟩
    refine ⟨rest ++ p.pieces.drop (position + 1), by simp [hrest], ?_⟩
    rw [← List.cons_append, ← htake, List.take_append_drop]
  · rintro ⟨rest, hrest, hp⟩
    have hposition : position ≠ 0 := by
      rintro rfl
      rw [hp] at hfound
      exact hne (Option.some.inj hfound).symm
    exact ⟨rest.take position, by simp [hposition, hrest], by rw [hp, List.take_succ_cons]⟩

/-- The route to the directory around is a beginning, and by a name less than all of it. -/
theorem exists_route_of_parent? (h : p.parent? = some q) :
    q.start = p.start ∧
      ∃ rest, p.route = q.route ++ rest ∧ (q.route = [] ∨ namesOf rest ≠ []) := by
  unfold parent? at h
  split at h
  case h_1 => cases h
  case h_2 piece hlast =>
    obtain rfl := Option.some.inj h
    refine ⟨?_, p.route, ?_, .inl ?_⟩
    · rw [start, start]
      cases p.isAbsolute <;> rfl
    · cases p.isAbsolute <;> rfl
    · cases p.isAbsolute <;> rfl
  case h_3 last position found more hlast =>
    obtain rfl := Option.some.inj h
    have hcounting : p.countingPieces = more.reverse ++ [(position, found), last] := by
      rw [← List.reverse_reverse p.countingPieces, hlast]
      simp
    obtain ⟨hfound, hfoundNe, -⟩ :=
      getElem?_of_mem_countingPieces (p := p) (show (position, found) ∈ _ by rw [hcounting]; simp)
    obtain ⟨hpiece, hne, hdot⟩ :=
      getElem?_of_mem_countingPieces (p := p) (show (last.1, last.2) ∈ _ by rw [hcounting]; simp)
    have hlt : position < last.1 := by
      have hpairwise := pairwise_countingPieces p
      rw [hcounting, List.pairwise_append] at hpairwise
      simpa using hpairwise.2.1
    have hpieces := pieces_joinWith_take p position
    have habsolute := isAbsolute_eq_of_pieces_eq_take hpieces hfound hfoundNe
    refine ⟨by rw [start, start, habsolute],
      (p.pieces.drop (position + 1)).filter (!·.isEmpty), ?_, .inr ?_⟩
    · rw [route, route, hpieces, ← List.filter_append, List.take_append_drop]
    · have hdrop : (p.pieces.drop (position + 1))[last.1 - (position + 1)]? = some last.2 := by
        rw [List.getElem?_drop, show position + 1 + (last.1 - (position + 1)) = last.1 by omega]
        exact hpiece
      have hname : String.ofList last.2 ∈
          namesOf ((p.pieces.drop (position + 1)).filter (!·.isEmpty)) := by
        refine List.mem_map_of_mem
          (List.mem_filter.2 ⟨List.mem_filter.2 ⟨?_, by simpa using hne⟩, ?_⟩)
        · exact List.mem_of_getElem? hdrop
        · exact bne_iff_ne.2 (hdot (Nat.ne_zero_of_lt hlt))
      exact List.ne_nil_of_mem hname

/-- A path lies in the working directory or in the directory around. -/
theorem directory_cases (p : Path) :
    p.directory = ⟨"."⟩ ∨ p.parent? = some p.directory ∧ p.directory.text.isEmpty = false := by
  rw [directory]
  cases p.parent? with
  | none => exact .inl rfl
  | some above =>
    by_cases hempty : above.text.isEmpty = true
    · exact .inl (by simp [hempty])
    · exact .inr (by simp [hempty])

theorem directory_text_isEmpty (p : Path) : p.directory.text.isEmpty = false := by
  rcases p.directory_cases with h | ⟨-, h⟩
  · rw [h]
    decide
  · exact h

/-! Paths of one name. -/

/-- A name that is a path by itself. -/
structure IsPlain (name : String) : Prop where
  ne_nil : name.toList ≠ []
  ne_dot : name.toList ≠ ['.']
  ne_up : name.toList ≠ ['.', '.']
  noSlash : '/' ∉ name.toList

namespace IsPlain

variable {name : String}

theorem pieces (h : IsPlain name) : Path.pieces ⟨name⟩ = [name.toList] := by
  rw [Path.pieces, Text.splitAt_of_not_mem h.noSlash]

theorem route (h : IsPlain name) : Path.route ⟨name⟩ = [name.toList] := by
  rw [Path.route, h.pieces]
  simpa using h.ne_nil

theorem namesOf_route (h : IsPlain name) : namesOf (Path.route ⟨name⟩) = [name] := by
  rw [h.route, namesOf]
  simp [h.ne_dot]

theorem isNormal (h : IsPlain name) : IsNormal ⟨name⟩ := by
  intro c hc
  have habsolute : ¬ Path.isAbsolute ⟨name⟩ := by
    intro habsolute
    obtain ⟨rest, hrest, hpieces⟩ := (isAbsolute_iff _).1 habsolute
    rw [h.pieces] at hpieces
    exact hrest (List.cons.inj hpieces).2.symm
  rw [components_eq, if_neg habsolute, h.pieces, h.route] at hc
  simp [h.ne_dot, Component.ofPiece, h.ne_up] at hc
  exact ⟨name, hc⟩

/-- A path that ends in a name has no slash behind it. -/
theorem endsInSlash_join (h : IsPlain name) (dir : Path) :
    (dir.join ⟨name⟩).endsInSlash = false := by
  have hends (before : List Char) : (before ++ name.toList).getLast? ≠ some '/' := by
    rw [List.getLast?_append_of_ne_nil before h.ne_nil]
    exact fun hlast => h.noSlash (List.mem_of_getLast? hlast)
  rw [endsInSlash, beq_eq_false_iff_ne, join]
  split
  · exact hends []
  · split
    · rw [String.toList_append]
      exact hends _
    · rw [String.toList_append]
      exact hends _

end IsPlain

end Path

end RegisterMap
