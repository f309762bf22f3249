import RegisterMap.Proofs.Document.Members
import RegisterMap.Proofs.Document.Properties
import RegisterMap.Proofs.Json.RoundTrip

/-!
A design read back from its document. Whatever spelling a part was read from, what is
written for it is an object that is nested no deeper, and it is read as the same part again.
-/

namespace RegisterMap

namespace Document

variable {α : Type} {write : α → Json} {members : List (String × Json)} {name : String}

/-! Values of an encoding. -/

theorem readsBack_enumeratedValue : ReadsBack enumeratedValue? EnumeratedValue.toJson := by
  intro j v hread
  simp only [enumeratedValue?, Option.bind_eq_bind, Option.bind_eq_some_iff] at hread
  obtain ⟨members, _, name, hname, value, hvalue, displayName, hdisplayName, desc, hdesc, hv⟩ :=
    hread
  obtain rfl := Option.some.inj hv
  have nameGiven := readsBack_text.required hname
  have valueGiven := readsBack_word.required hvalue
  have displayNameGiven := readsBack_text.optional (fun _ => by simp [Json.str]) hdisplayName
  have descGiven := readsBack_text.optional (fun _ => by simp [Json.str]) hdesc
  refine ⟨isExact_record.2 ?_, ?_⟩
  · simp only [List.forall_mem_append, List.forall_mem_cons]
    exact ⟨⟨⟨nameGiven.exact _ rfl, valueGiven.exact _ rfl, by simp⟩,
      displayNameGiven.exact_present⟩, descGiven.exact_present⟩
  · simp only [EnumeratedValue.toJson, enumeratedValue?, Option.bind_eq_bind,
      Option.bind_eq_some_iff]
    refine ⟨_, record?_record (by decide) ?_, name, nameGiven.get_eq _ ?_,
      value, valueGiven.get_eq _ ?_, displayName, displayNameGiven.get_eq _ ?_,
      desc, descGiven.get_eq _ ?_, rfl⟩
    · simp only [List.map_append]
      exact ((List.Sublist.refl ["name", "value"]).append (keys_present _)).append
        (keys_present _)
    all_goals simp [List.lookup_append, lookup_present, List.lookup_cons]

/-! Property values. -/

theorem depth_toJson (v : EnumeratedValue) : v.toJson.depth = 1 := by
  obtain ⟨name, value, displayName, desc⟩ := v
  cases displayName <;> cases desc <;> rfl

theorem depth_pos_of_enumeratedValue? {j : Json} {v : EnumeratedValue}
    (h : enumeratedValue? j = some v) : 0 < j.depth := by
  cases j with
  | array items => exact Nat.succ_pos _
  | object members => exact Nat.succ_pos _
  | _ => cases h

/-- The values of an encoding are records with nothing nested in them, so whatever they were
read from is nested as deeply. -/
theorem depthOfItems_toJson_le {items : List Json} {values : List EnumeratedValue}
    (h : items.mapM enumeratedValue? = some values) :
    Json.depthOfItems (values.map EnumeratedValue.toJson) ≤ Json.depthOfItems items := by
  refine Json.depthOfItems_le.2 (List.forall_mem_map.2 fun v hv => ?_)
  obtain ⟨item, hitem, hread⟩ := exists_of_mem_mapM h hv
  calc v.toJson.depth = 1 := depth_toJson v
    _ ≤ item.depth := depth_pos_of_enumeratedValue? hread
    _ ≤ Json.depthOfItems items := Json.depthOfItems_le.1 (Nat.le_refl _) item hitem

theorem readsBack_propertyValue (levels : Nat) :
    ReadsBack (propertyValue? levels) PropertyValue.toJson := by
  intro j value hread
  obtain ⟨hguard, hvalue⟩ := Option.ite_none_right_eq_some.1 hread
  rw [Bool.and_eq_true, decide_eq_true_eq] at hguard
  cases j with
  | bool b =>
    obtain rfl := Option.some.inj hvalue
    exact ⟨trivial, hread⟩
  | text s =>
    obtain ⟨s, rfl, rfl⟩ := Option.map_eq_some_iff.1 hvalue
    exact ⟨rfl, hread⟩
  | array items =>
    obtain ⟨values, hvalues, rfl⟩ := Option.map_eq_some_iff.1 hvalue
    have hback := readsBack_enumeratedValue.of_mapM hvalues
    have hexact : (PropertyValue.encode values).toJson.IsExact :=
      Json.itemsExact_iff.2 (List.forall_mem_map.2 fun v hv => (hback v hv).1)
    have hdepth : (PropertyValue.encode values).toJson.depth ≤ levels :=
      Nat.le_trans (Nat.succ_le_succ (depthOfItems_toJson_le hvalues)) hguard.1
    refine ⟨hexact, Option.ite_none_right_eq_some.2 ⟨?_, ?_⟩⟩
    · rw [Bool.and_eq_true, decide_eq_true_eq]
      exact ⟨hdepth, Json.isSound_of_isExact hexact⟩
    · exact Option.map_eq_some_iff.2 ⟨values, mapM_map_eq_some fun v hv => (hback v hv).2, rfl⟩
  | number n =>
    obtain ⟨word, hword, rfl⟩ := Option.map_eq_some_iff.1 hvalue
    rw [(numberBelow?_eq_some_iff.1 hword).1] at hread
    exact ⟨(readsBack_word _ _ hword).1, hread⟩
  | null => cases hvalue
  | object members => cases hvalue

theorem readsBack_properties (levels : Nat) :
    ReadsBack (properties? levels) Properties.toJson := by
  intro j p hread
  cases levels with
  | zero => cases hread
  | succ left =>
    cases j with
    | object members =>
      obtain ⟨entries, hentries, hp⟩ := Option.bind_eq_some_iff.1 hread
      obtain rfl := Option.some.inj hp
      have hback : ∀ entry ∈ (Properties.ofList entries).entries,
          entry.2.toJson.IsExact ∧ propertyValue? left entry.2.toJson = some entry.2 := by
        intro entry hentry
        obtain ⟨member, _, hmember⟩ :=
          exists_of_mem_mapM hentries (Properties.mem_of_mem_ofList hentry)
        simp only [Option.bind_eq_bind, Option.bind_eq_some_iff] at hmember
        obtain ⟨key, _, value, hvalue, hentry⟩ := hmember
        obtain rfl := Option.some.inj hentry
        exact readsBack_propertyValue left _ _ hvalue
      refine ⟨isExact_record.2 (List.forall_mem_map.2 fun entry hentry => (hback entry hentry).1),
        ?_⟩
      simp only [Properties.toJson, Json.record, properties?, List.map_map, Option.bind_eq_bind,
        Option.bind_eq_some_iff]
      refine ⟨(Properties.ofList entries).entries, mapM_map_eq_some fun entry hentry => ?_,
        congrArg some (Properties.ofList_of_isSorted (Properties.isSorted_ofList entries))⟩
      rw [Function.comp_apply, (hback entry hentry).2]
      rfl
    | _ => cases hread

theorem gives_properties {levels : Nat} {p : Properties}
    (hread : orDefault? members "properties" .empty (properties? levels) = some p) :
    ∃ o, p.member = present "properties" Properties.toJson o ∧
      Gives "properties" (o.map Properties.toJson)
        (orDefault? · "properties" .empty (properties? levels)) p := by
  obtain ⟨entries⟩ := p
  cases entries with
  | nil => exact ⟨none, rfl, (readsBack_properties levels).orDefault (by simp) hread⟩
  | cons first rest =>
    exact ⟨some ⟨first :: rest⟩, rfl,
      (readsBack_properties levels).orDefault (by simp [Properties.empty]) hread⟩

/-- A list that is left out where it is empty. -/
theorem ReadsBack.nonempty {read : Json → Option (List α)}
    (h : ReadsBack read fun items => .array (items.map write)) {items : List α}
    (hread : orDefault? members name [] read = some items) :
    ∃ o : Option (List α),
      Document.nonempty name write items = present name (fun items => .array (items.map write)) o ∧
      Gives name (o.map fun items => .array (items.map write)) (orDefault? · name [] read)
        items := by
  cases items with
  | nil => exact ⟨none, rfl, h.orDefault (by simp) hread⟩
  | cons first rest => exact ⟨some (first :: rest), rfl, h.orDefault (by simp) hread⟩

/-! Parts with members. -/

theorem readsBack_arrayShape (levels : Nat) :
    ReadsBack (arrayShape? levels) ArrayShape.toJson := by
  intro j a hread
  cases levels with
  | zero => cases hread
  | succ left =>
    simp only [arrayShape?, Option.bind_eq_bind, Option.bind_eq_some_iff] at hread
    obtain ⟨members, _, dimensions, hdimensions, stride, hstride, ha⟩ := hread
    obtain rfl := Option.some.inj ha
    have hwords : ReadsBack (list? (fun _ => word?) left) fun words => .array (words.map .nat) :=
      .list fun _ _ => readsBack_word
    have dimensionsGiven := hwords.required hdimensions
    have strideGiven := readsBack_word.required hstride
    refine ⟨isExact_record.2 ?_, ?_⟩
    · simp only [List.forall_mem_cons]
      exact ⟨dimensionsGiven.exact _ rfl, strideGiven.exact _ rfl, by simp⟩
    · simp only [ArrayShape.toJson, arrayShape?, Option.bind_eq_bind, Option.bind_eq_some_iff]
      refine ⟨_, record?_record (by decide) (List.Sublist.refl _),
        dimensions, dimensionsGiven.get_eq _ ?_, stride, strideGiven.get_eq _ ?_, rfl⟩
      all_goals simp [List.lookup_cons]

theorem readsBack_field (levels : Nat) : ReadsBack (field? levels) Field.toJson := by
  intro j f hread
  cases levels with
  | zero => cases hread
  | succ left =>
    simp only [field?, Option.bind_eq_bind, Option.bind_eq_some_iff] at hread
    obtain ⟨members, _, name, hname, lsb, hlsb, msb, hmsb, properties, hproperties, hf⟩ := hread
    obtain rfl := Option.some.inj hf
    have nameGiven := readsBack_text.required hname
    have lsbGiven := readsBack_narrowWord.required hlsb
    have msbGiven := readsBack_narrowWord.required hmsb
    obtain ⟨table, htable, propertiesGiven⟩ := gives_properties hproperties
    rw [Field.toJson, htable]
    refine ⟨isExact_record.2 ?_, ?_⟩
    · simp only [List.forall_mem_append, List.forall_mem_cons]
      exact ⟨⟨nameGiven.exact _ rfl, lsbGiven.exact _ rfl, msbGiven.exact _ rfl, by simp⟩,
        propertiesGiven.exact_present⟩
    · simp only [field?, Option.bind_eq_bind, Option.bind_eq_some_iff]
      refine ⟨_, record?_record (by decide) ?_, name, nameGiven.get_eq _ ?_,
        lsb, lsbGiven.get_eq _ ?_, msb, msbGiven.get_eq _ ?_,
        properties, propertiesGiven.get_eq _ ?_, rfl⟩
      · rw [List.map_append]
        exact (List.Sublist.refl ["inst_name", "lsb", "msb"]).append (keys_present _)
      all_goals simp [lookup_present, List.lookup_cons]

/-- The children of a node are its nodes, one by one. -/
theorem nodes?_eq (levels : Nat) (j : Json) : nodes? levels j = list? node? levels j := by
  cases levels with
  | zero => rfl
  | succ left =>
    cases j with
    | array items => rfl
    | _ => rfl

theorem toJsonAll_eq_map (children : List Node) :
    Node.toJsonAll children = children.map Node.toJson := by
  induction children with
  | nil => rfl
  | cons child rest ih => rw [Node.toJsonAll, ih, List.map_cons]

theorem children_eq_nonempty (children : List Node) :
    (if children.isEmpty then [] else [("children", .array (Node.toJsonAll children))]) =
      nonempty "children" Node.toJson children := by
  rw [toJsonAll_eq_map]
  cases children with
  | nil => rfl
  | cons child rest => rfl

theorem readsBack_node (levels : Nat) : ReadsBack (node? levels) Node.toJson := by
  -- The children of a node are read with two levels less than the node itself.
  induction levels using Nat.strong_induction_on with
  | h levels ih =>
  intro j n hread
  cases levels with
  | zero =>
    rw [node?] at hread
    cases hread
  | succ left =>
    simp only [node?, Option.bind_eq_bind, Option.bind_eq_some_iff] at hread
    obtain ⟨members, _, name, hname, kind, hkind, offset, hoffset, size, hsize, array, harray,
      properties, hproperties, children, hchildren, fields, hfields, source, hsource, hn⟩ := hread
    obtain rfl := Option.some.inj hn
    have hnodes : ReadsBack (nodes? left) fun items => .array (items.map Node.toJson) := by
      rw [funext (nodes?_eq left)]
      exact .list fun inner hinner => ih inner (Nat.lt_succ_of_lt hinner)
    have hfieldList : ReadsBack (list? field? left) fun items => .array (items.map Field.toJson) :=
      .list fun inner _ => readsBack_field inner
    have nameGiven := readsBack_text.required hname
    have kindGiven := (readsBack_kind left).required hkind
    have offsetGiven : Gives "offset" (some (.nat offset)) (orDefault? · "offset" 0 word?) offset :=
      readsBack_word.orDefault (o := some offset)
        (fun _ => readsBack_word (.nat 0) 0 (by decide)) hoffset
    have sizeGiven := readsBack_word.optional (fun _ => by simp [Json.nat]) hsize
    have arrayGiven := (readsBack_arrayShape left).optional
      (fun _ => by simp [ArrayShape.toJson, Json.record]) harray
    obtain ⟨table, htable, propertiesGiven⟩ := gives_properties hproperties
    obtain ⟨below, hbelow, childrenGiven⟩ := hnodes.nonempty hchildren
    obtain ⟨parts, hparts, fieldsGiven⟩ := hfieldList.nonempty hfields
    have sourceGiven := readsBack_path.optional (fun _ => by simp [Json.str]) hsource
    rw [Node.toJson, htable, children_eq_nonempty, hbelow, hparts]
    refine ⟨isExact_record.2 ?_, ?_⟩
    · simp only [List.forall_mem_append, List.forall_mem_cons]
      exact ⟨⟨⟨⟨⟨⟨⟨nameGiven.exact _ rfl, kindGiven.exact _ rfl, offsetGiven.exact _ rfl, by simp⟩,
        sizeGiven.exact_present⟩, arrayGiven.exact_present⟩, propertiesGiven.exact_present⟩,
        childrenGiven.exact_present⟩, fieldsGiven.exact_present⟩, sourceGiven.exact_present⟩
    · simp only [node?, Option.bind_eq_bind, Option.bind_eq_some_iff]
      refine ⟨_, record?_record (by decide) ?_, name, nameGiven.get_eq _ ?_,
        kind, kindGiven.get_eq _ ?_, offset, offsetGiven.get_eq _ ?_, size, sizeGiven.get_eq _ ?_,
        array, arrayGiven.get_eq _ ?_, properties, propertiesGiven.get_eq _ ?_,
        children, childrenGiven.get_eq _ ?_, fields, fieldsGiven.get_eq _ ?_,
        source, sourceGiven.get_eq _ ?_, rfl⟩
      · simp only [List.map_append]
        exact ((((((List.Sublist.refl ["inst_name", "kind", "offset"]).append
          (keys_present _)).append (keys_present _)).append (keys_present _)).append
          (keys_present _)).append (keys_present _)).append (keys_present _)
      all_goals simp [List.lookup_append, lookup_present, List.lookup_cons]

theorem readsBack_design : ReadsBack design? Design.toJson := by
  intro j d hread
  simp only [design?, Option.bind_eq_bind, Option.bind_eq_some_iff] at hread
  obtain ⟨members, _, top, htop, hd⟩ := hread
  obtain rfl := Option.some.inj hd
  have topGiven := (readsBack_node (documentLevels - 1)).required htop
  refine ⟨isExact_record.2 (List.forall_mem_singleton.2 (topGiven.exact _ rfl)), ?_⟩
  simp only [Design.toJson, design?, Option.bind_eq_bind, Option.bind_eq_some_iff]
  exact ⟨_, record?_record (by decide) (List.Sublist.refl _), top,
    topGiven.get_eq _ (by simp), rfl⟩

end Document

namespace Design

open Document

variable {s : String} {d : Design}

theorem ofJson_eq_ok_iff {j : Json} :
    Design.ofJson j = .ok d ↔ design? j = some d ∧ d.top.validate = .ok () := by
  constructor
  · intro h
    unfold Design.ofJson at h
    split at h
    · cases h
    · next read hread =>
      split at h
      · cases h
      · next hvalid =>
        obtain rfl := Except.ok.inj h
        exact ⟨hread, hvalid⟩
  · rintro ⟨hread, hvalid⟩
    rw [Design.ofJson, hread]
    simp only [hvalid]

theorem ofText_eq_ok_iff :
    Design.ofText s = .ok d ↔ ∃ j, Json.ofText? s = some j ∧ Design.ofJson j = .ok d := by
  unfold Design.ofText
  cases Json.ofText? s with
  | none => simp
  | some j => simp

/-- A design that was read is read from what is written for it. -/
theorem ofText_render_of_ofText (h : Design.ofText s = .ok d) :
    Design.ofText d.render = .ok d := by
  obtain ⟨j, _, hj⟩ := ofText_eq_ok_iff.1 h
  obtain ⟨hread, hvalid⟩ := ofJson_eq_ok_iff.1 hj
  obtain ⟨hexact, hback⟩ := readsBack_design j d hread
  exact ofText_eq_ok_iff.2
    ⟨d.toJson, Json.ofText?_render hexact, ofJson_eq_ok_iff.2 ⟨hback, hvalid⟩⟩

/-- Designs that were read are told apart by what is written for them. -/
theorem eq_of_render_eq {s' : String} {d' : Design} (h : Design.ofText s = .ok d)
    (h' : Design.ofText s' = .ok d') (hrender : d.render = d'.render) : d = d' := by
  have hsame := ofText_render_of_ofText h'
  rw [← hrender, ofText_render_of_ofText h] at hsame
  exact Except.ok.inj hsame

/-- A document in whatever spelling is written back as a document of the same design, and
this one is its own text: it is read as that design and written as it stands. -/
theorem document_roundTrips (h : Design.ofText s = .ok d) :
    Design.ofText d.render = .ok d ∧
      ∀ again, Design.ofText d.render = .ok again → again.render = d.render := by
  have hback := ofText_render_of_ofText h
  refine ⟨hback, fun again hagain => ?_⟩
  rw [hback] at hagain
  rw [Except.ok.inj hagain]

/-- Records as lists, members in another order, one that means nothing, some that are null
and many that are left out. -/
def spelledDocument : String :=
  "[\x7b\"children\":[[\"r\",\"reg\",0,null,null,\x7b\"p\":1,\"encode\":[[\"a\",0]]," ++
    "\"b\":true\x7d]],\"x\":0,\"kind\":\"addrmap\", \"inst_name\":\"m\"\x7d]"

def writtenDocument : String :=
  "\x7b\"top\":\x7b\"inst_name\":\"m\",\"kind\":\"addrmap\",\"offset\":0,\"children\":" ++
    "[\x7b\"inst_name\":\"r\",\"kind\":\"reg\",\"offset\":0,\"properties\":\x7b\"b\":true," ++
    "\"encode\":[\x7b\"name\":\"a\",\"value\":0\x7d],\"p\":1\x7d\x7d]\x7d\x7d"

theorem document_roundTrips_of_spelledDocument :
    ∃ d, Design.ofText spelledDocument = .ok d ∧ d.render = writtenDocument ∧
      Design.ofText d.render = .ok d ∧
      ∀ again, Design.ofText d.render = .ok again → again.render = d.render := by
  have hwritten : (Design.ofText spelledDocument).toOption.map Design.render =
      some writtenDocument := by
    decide +kernel
  obtain ⟨d, hread, hd⟩ := Option.map_eq_some_iff.1 hwritten
  have hok : Design.ofText spelledDocument = .ok d := by
    cases hspelled : Design.ofText spelledDocument with
    | error e =>
      rw [hspelled] at hread
      cases hread
    | ok read =>
      rw [hspelled] at hread
      exact congrArg Except.ok (Option.some.inj hread)
  exact ⟨d, hok, hd, document_roundTrips hok⟩

end Design

end RegisterMap
