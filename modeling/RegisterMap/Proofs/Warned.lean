import RegisterMap.Proofs.Produce

/-!
The warnings of a session: their texts among its messages, and their number.
-/

namespace RegisterMap.Session

variable {σ : Type} {s t u : Session σ}

/-- The texts of the warnings so far. -/
def warned (s : Session σ) : List String := Message.textsOf .warning s.messages.toList

/-- A session that has warned of some texts since another, and has counted them. -/
structure Warns (s t : Session σ) (texts : List String) : Prop where
  warned_eq : t.warned = s.warned ++ texts
  warnings_eq : t.warnings = s.warnings + texts.length

/-- Nothing has been warned of between two sessions with the same messages. -/
theorem Warns.of_same (hmessages : t.messages = s.messages) (hwarnings : t.warnings = s.warnings) :
    s.Warns t [] := by
  refine ⟨?_, hwarnings⟩
  rw [warned, hmessages, List.append_nil]
  rfl

theorem Warns.trans {texts texts' : List String} (h : s.Warns t texts) (h' : t.Warns u texts') :
    s.Warns u (texts ++ texts') := by
  refine ⟨?_, ?_⟩
  · rw [h'.warned_eq, h.warned_eq, List.append_assoc]
  · rw [h'.warnings_eq, h.warnings_eq, List.length_append, Nat.add_assoc]

theorem warned_emit (s : Session σ) (severity : Severity) (text : String) :
    (s.emit severity text).warned = s.warned ++ if severity = .warning then [text] else [] := by
  unfold warned emit Message.textsOf
  rw [Array.toList_push, List.filter_append, List.map_append]
  by_cases h : severity = .warning <;> simp [h]

theorem warns_warn (s : Session σ) (text : String) : s.Warns (s.warn text) [text] :=
  ⟨s.warned_emit .warning text, rfl⟩

theorem warns_emit (s : Session σ) {severity : Severity} (h : severity ≠ .warning)
    (text : String) : s.Warns (s.emit severity text) [] := by
  refine ⟨?_, rfl⟩
  rw [warned_emit, if_neg h]

/-- A gap between elements is told, but not warned of. -/
theorem warns_tellGap (s : Session σ) (e : Element) : s.Warns (s.tellGap e) [] := by
  unfold tellGap
  split
  · split
    · exact s.warns_emit (by decide) _
    · exact .of_same rfl rfl
  · exact .of_same rfl rfl

end RegisterMap.Session

namespace RegisterMap.Emitter

variable {σ : Type} (em : Emitter σ)

/-- Nothing is warned of before an emitter starts. -/
theorem warns_opening (top : Node) (destination : Path) :
    Session.Warns { state := em.initial } (em.opening top destination) [] :=
  Session.warns_emit _ (by decide) _

/-- What is told of an artifact when it is written is no warning. -/
theorem warned_run {m : Type → Type} [Monad m] [LawfulMonad m] (fs : FileSystem m) {top : Node}
    {destination : Path} {a : Artifact} {s : Session σ}
    (h : em.produce top destination = (.ok a, s)) :
    (fun result => result.2.warned) <$> em.run fs top destination =
      (fun _ => s.warned) <$> fs.writeArtifact destination a := by
  have htold (severity : Severity) (hgrave : severity ≠ .warning) (text : String) :
      (s.emit severity text).warned = s.warned := by
    rw [Session.warned_emit, if_neg hgrave, List.append_nil]
  unfold run
  rw [h]
  simp only [map_eq_pure_bind, bind_assoc]
  congr 1
  funext written
  cases written with
  | error e => simp [Session.tell, htold .fatal (by decide)]
  | ok files => simp [htold .debug (by decide)]

end RegisterMap.Emitter
