import RegisterMap.Proofs.Json.Exact
import RegisterMap.Proofs.Json.Tokens

/-!
A value read back from its text. Written without spaces, its text falls into the tokens of
its tree, each of them behind the one before it, and these lead the reader from any place
where a value may stand to the place behind it, with that value complete.
-/

namespace RegisterMap.Json

mutual

/-- The tokens of a value, with commas and colons where its text has them. -/
def tokens : Json → List Token
  | .null => [.null]
  | .bool b => [.bool b]
  | .number n => [.number n]
  | .text s => [.text s]
  | .array items => .openArray :: (itemTokens items ++ [.closeArray])
  | .object members => .openObject :: (memberTokens members ++ [.closeObject])

def itemTokens : List Json → List Token
  | [] => []
  | [item] => item.tokens
  | item :: next :: items => item.tokens ++ .comma :: itemTokens (next :: items)

def memberTokens : List (Text × Json) → List Token
  | [] => []
  | [(key, value)] => .text key :: .colon :: value.tokens
  | (key, value) :: next :: members =>
    .text key :: .colon :: (value.tokens ++ .comma :: memberTokens (next :: members))

end

/-! From the text to tokens. -/

/-- Characters that are read as some tokens, if what follows cannot belong to a number. -/
def Lexes (cs : List Char) (ts : List Token) : Prop :=
  ∀ before rest, EndsNumber rest →
    tokensFrom before (cs ++ rest) = tokensFrom (ts.reverse ++ before) rest

theorem endsNumber_punctuation {c : Char} {token : Token} (h : Token.ofChar? c = some token)
    (rest : List Char) : EndsNumber (c :: rest) := by
  have hother : isNumberChar c = false := by
    have hmem := mem_of_ofChar? h
    simp only [List.mem_cons, List.not_mem_nil, or_false] at hmem
    rcases hmem with rfl | rfl | rfl | rfl | rfl | rfl <;> decide
  intro d hd
  obtain rfl : c = d := by simpa using hd
  exact hother

namespace Lexes

variable {cs ds : List Char} {ts us : List Token}

theorem nil : Lexes [] [] := fun _ _ _ => rfl

/-- A bracket, a comma or a colon in front. -/
theorem cons {c : Char} {token : Token} (hc : Token.ofChar? c = some token) (h : Lexes cs ts) :
    Lexes (c :: cs) (token :: ts) := by
  intro before rest hrest
  rw [List.cons_append, tokensFrom_punctuation hc, h _ _ hrest]
  simp

/-- A bracket, a comma or a colon in between. -/
theorem append {c : Char} {token : Token} (h : Lexes cs ts) (hc : Token.ofChar? c = some token)
    (h' : Lexes ds us) : Lexes (cs ++ c :: ds) (ts ++ token :: us) := by
  intro before rest hrest
  rw [List.append_assoc, List.cons_append, h _ _ (endsNumber_punctuation hc _),
    tokensFrom_punctuation hc, h' _ _ hrest]
  simp

theorem string (s : String) : Lexes (quote s).toList [.text (some s)] :=
  fun _ _ _ => tokensFrom_string s

theorem number {n : Nat} (h : n < Word.limit) :
    Lexes (toString n).toList [.number (.natural n)] :=
  fun _ _ hrest => tokensFrom_number h hrest

theorem null : Lexes ['n', 'u', 'l', 'l'] [.null] := by
  intro before rest _
  simp [tokensFrom]

theorem bool (b : Bool) : Lexes (if b then "true" else "false").toList [.bool b] := by
  intro before rest _
  cases b <;> simp [tokensFrom]

end Lexes

/-- The characters that pieces are put together to. -/
def charsOf (pieces : List String) : List Char := pieces.flatMap String.toList

theorem charsOf_append (front back : List String) :
    charsOf (front ++ back) = charsOf front ++ charsOf back :=
  List.flatMap_append

theorem charsOf_cons (piece : String) (pieces : List String) :
    charsOf (piece :: pieces) = piece.toList ++ charsOf pieces :=
  List.flatMap_cons

theorem toList_render (j : Json) : j.render.toList = charsOf j.pieces := by
  rw [render, String.toList_join, charsOf]

theorem lexes_itemPieces {items : List Json}
    (h : ∀ item ∈ items, Lexes (charsOf item.pieces) item.tokens) :
    Lexes (charsOf (itemPieces items)) (itemTokens items) := by
  induction items with
  | nil => exact .nil
  | cons item rest ih =>
    have hitem := h item List.mem_cons_self
    cases rest with
    | nil => exact hitem
    | cons next more =>
      have hrest := ih fun other hother => h other (List.mem_cons_of_mem item hother)
      rw [itemPieces, itemTokens, charsOf_append, charsOf_cons]
      exact hitem.append rfl hrest

theorem lexes_member {key : Text} {value : Json} (hkey : key.isSome = true)
    (h : Lexes (charsOf value.pieces) value.tokens) :
    Lexes (charsOf (renderText key :: ":" :: value.pieces))
      (.text key :: .colon :: value.tokens) := by
  obtain ⟨s, rfl⟩ := Option.isSome_iff_exists.1 hkey
  rw [charsOf_cons, charsOf_cons]
  exact (Lexes.string s).append rfl h

theorem lexes_memberPieces {members : List (Text × Json)}
    (h : ∀ member ∈ members, member.1.isSome = true ∧
      Lexes (charsOf member.2.pieces) member.2.tokens) :
    Lexes (charsOf (memberPieces members)) (memberTokens members) := by
  induction members with
  | nil => exact .nil
  | cons member rest ih =>
    obtain ⟨hkey, hvalue⟩ := h member List.mem_cons_self
    have hmember := lexes_member hkey hvalue
    cases rest with
    | nil => exact hmember
    | cons next more =>
      have hrest := ih fun other hother => h other (List.mem_cons_of_mem member hother)
      have hall := hmember.append (c := ',') rfl hrest
      have hpieces : memberPieces (member :: next :: more) =
          (renderText member.1 :: ":" :: member.2.pieces) ++
            "," :: memberPieces (next :: more) := rfl
      have htokens : memberTokens (member :: next :: more) =
          (.text member.1 :: .colon :: member.2.tokens) ++
            .comma :: memberTokens (next :: more) := rfl
      rw [hpieces, htokens, charsOf_append, charsOf_cons]
      exact hall

theorem lexes_pieces {j : Json} (h : j.IsExact) : Lexes (charsOf j.pieces) j.tokens := by
  induction j using Json.induction with
  | null => exact .null
  | bool b =>
    cases b with
    | true => exact .bool true
    | false => exact .bool false
  | number n =>
    obtain ⟨word, hword, rfl⟩ := h
    simpa [pieces, charsOf, Number.render, tokens] using Lexes.number hword
  | text s =>
    obtain ⟨s, rfl⟩ := Option.isSome_iff_exists.1 h
    simpa [pieces, charsOf, renderText, tokens] using Lexes.string s
  | array items ih =>
    have hitems := lexes_itemPieces fun item hitem => ih item hitem (itemsExact_iff.1 h item hitem)
    rw [pieces, tokens, charsOf_cons, charsOf_append]
    exact (hitems.append (c := ']') rfl .nil).cons rfl
  | object members ih =>
    have hmembers := lexes_memberPieces fun member hmember =>
      have hexact := membersExact_iff.1 h member hmember
      ⟨hexact.1, ih member hmember hexact.2⟩
    rw [pieces, tokens, charsOf_cons, charsOf_append]
    exact (hmembers.append (c := '\x7d') rfl .nil).cons rfl

/-! From tokens to the value. -/

/-- Tokens that lead the reader from one state to another. -/
def Leads (ts : List Token) (s t : State) : Prop := ts.foldlM State.step s = some t

namespace Leads

variable {ts us : List Token} {s t u : State}

theorem cons {token : Token} (hstep : s.step token = some t) (h : Leads ts t u) :
    Leads (token :: ts) s u := by
  unfold Leads
  rw [List.foldlM_cons, hstep]
  exact h

theorem append (h : Leads ts s t) (h' : Leads us t u) : Leads (ts ++ us) s u := by
  unfold Leads at h h' ⊢
  rw [List.foldlM_append, h]
  exact h'

theorem single {token : Token} (hstep : s.step token = some t) : Leads [token] s t :=
  cons hstep rfl

end Leads

/-- Tokens of a value, wherever one may stand. -/
def ReadsAs (ts : List Token) (j : Json) : Prop :=
  ∀ outer, Leads ts (.value outer) (.complete j outer)

/-- The first item of an array may stand where the array may end too. -/
theorem Leads.first {ts : List Token} {outer : List Frame} {done : List Json}
    (h : Leads ts (.value (.items [] :: outer)) (.afterItem done outer)) :
    Leads ts (.itemOrClose outer) (.afterItem done outer) := by
  cases ts with
  | nil => cases h
  | cons token rest =>
    cases token with
    | closeArray => cases h
    | _ => exact h

/-- So may the first member of an object. -/
theorem Leads.firstMember {ts : List Token} {outer : List Frame} {done : List (Text × Json)}
    (h : Leads ts (.nextKey [] outer) (.afterMember done outer)) :
    Leads ts (.keyOrClose outer) (.afterMember done outer) := by
  cases ts with
  | nil => cases h
  | cons token rest =>
    cases token with
    | text key => exact h
    | _ => cases h

theorem leads_itemTokens {item : Json} {rest : List Json}
    (h : ∀ j ∈ item :: rest, ReadsAs j.tokens j) (done : List Json) (outer : List Frame) :
    Leads (itemTokens (item :: rest)) (.value (.items done :: outer))
      (.afterItem ((item :: rest).reverse ++ done) outer) := by
  have hitem := h item List.mem_cons_self (.items done :: outer)
  induction rest generalizing item done with
  | nil => exact hitem
  | cons next more ih =>
    have hnext := h next (by simp) (.items (item :: done) :: outer)
    have hrest := ih (fun j hj => h j (List.mem_cons_of_mem item hj)) (item :: done) hnext
    have hdone : (next :: more).reverse ++ item :: done =
        (item :: next :: more).reverse ++ done := by simp
    rw [hdone] at hrest
    exact hitem.append (.cons rfl hrest)

theorem leads_member {key : Text} {value : Json} (h : ReadsAs value.tokens value)
    (done : List (Text × Json)) (outer : List Frame) :
    Leads (.text key :: .colon :: value.tokens) (.nextKey done outer)
      (.afterMember ((key, value) :: done) outer) :=
  .cons rfl (.cons rfl (h (.member done key :: outer)))

theorem leads_memberTokens {member : Text × Json} {rest : List (Text × Json)}
    (h : ∀ m ∈ member :: rest, ReadsAs m.2.tokens m.2) (done : List (Text × Json))
    (outer : List Frame) :
    Leads (memberTokens (member :: rest)) (.nextKey done outer)
      (.afterMember ((member :: rest).reverse ++ done) outer) := by
  have hmember : Leads (.text member.1 :: .colon :: member.2.tokens) (.nextKey done outer)
      (.afterMember (member :: done) outer) :=
    leads_member (h member List.mem_cons_self) done outer
  induction rest generalizing member done with
  | nil => exact hmember
  | cons next more ih =>
    have hrest := ih (fun m hm => h m (List.mem_cons_of_mem member hm)) (member :: done)
      (leads_member (h next (by simp)) (member :: done) outer)
    have hdone : (next :: more).reverse ++ member :: done =
        (member :: next :: more).reverse ++ done := by simp
    rw [hdone] at hrest
    exact hmember.append (.cons rfl hrest)

theorem readsAs_tokens (j : Json) : ReadsAs j.tokens j := by
  induction j using Json.induction with
  | null => exact fun outer => .single rfl
  | bool b => exact fun outer => .single rfl
  | number n => exact fun outer => .single rfl
  | text s => exact fun outer => .single rfl
  | array items ih =>
    intro outer
    cases items with
    | nil => exact .cons rfl (.single rfl)
    | cons item rest =>
      have hitems := leads_itemTokens ih [] outer
      have hclose : State.step (.afterItem ((item :: rest).reverse ++ []) outer) .closeArray =
          some (.complete (.array (item :: rest)) outer) := by
        simp [State.step]
      exact .cons rfl (hitems.first.append (.single hclose))
  | object members ih =>
    intro outer
    cases members with
    | nil => exact .cons rfl (.single rfl)
    | cons member rest =>
      have hmembers := leads_memberTokens ih [] outer
      have hclose : State.step (.afterMember ((member :: rest).reverse ++ []) outer)
          .closeObject = some (.complete (.object (member :: rest)) outer) := by
        simp [State.step]
      exact .cons rfl (hmembers.firstMember.append (.single hclose))

/-- What is written for a value is read as that value. -/
theorem ofText?_render {j : Json} (h : j.IsExact) : ofText? j.render = some j := by
  have htokens : tokens? j.render = some j.tokens := by
    have hlexes := lexes_pieces h [] [] fun _ hnone => by cases hnone
    rw [tokens?, toList_render]
    simpa [tokensFrom] using hlexes
  have hreads : j.tokens.foldlM State.step (.value []) = some (.finished j) := readsAs_tokens j []
  rw [ofText?, htokens, Option.bind_eq_bind, Option.bind_some, hreads]
  rfl

end RegisterMap.Json
