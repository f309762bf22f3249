import RegisterMap.Proofs.KeepsWords
import RegisterMap.Proofs.Warned
import RegisterMap.Proofs.Writing

/-!
What the steps of an export tell. However a step ends, it has only told more than was
told before, nothing of it as an error, and it has counted its warnings. The failure
itself is told once the walk is over, when no step is left.
-/

namespace RegisterMap

open ExportM

/-- A message that tells of no failure. -/
def Message.IsMild (m : Message) : Prop := m.severity ≠ .error ∧ m.severity ≠ .fatal

/-- A session that has told some mild messages since another, and counted the warnings. -/
structure Session.Tells {σ : Type} (s t : Session σ) (told : List Message) : Prop where
  messages_eq : t.messages.toList = s.messages.toList ++ told
  warnings_eq : t.warnings = s.warnings + (Message.textsOf .warning told).length
  mild : ∀ m ∈ told, m.IsMild

namespace Session.Tells

variable {σ : Type} {s t u : Session σ}

/-- Nothing has been told between two sessions with the same messages. -/
theorem of_same (hmessages : t.messages = s.messages) (hwarnings : t.warnings = s.warnings) :
    s.Tells t [] :=
  ⟨by rw [hmessages, List.append_nil], hwarnings, by simp⟩

theorem trans {told told' : List Message} (h : s.Tells t told) (h' : t.Tells u told') :
    s.Tells u (told ++ told') where
  messages_eq := by rw [h'.messages_eq, h.messages_eq, List.append_assoc]
  warnings_eq := by
    rw [h'.warnings_eq, h.warnings_eq, Message.textsOf, Message.textsOf, Message.textsOf,
      List.filter_append, List.map_append, List.length_append, Nat.add_assoc]
  mild m hm := (List.mem_append.1 hm).elim (h.mild m) (h'.mild m)

theorem emit (s : Session σ) {severity : Severity} (hwarning : severity ≠ .warning) (text : String)
    (hmild : (⟨severity, text⟩ : Message).IsMild) :
    s.Tells (s.emit severity text) [⟨severity, text⟩] where
  messages_eq := Array.toList_push
  warnings_eq := by simp [Session.emit, Message.textsOf, hwarning]
  mild := by simpa using hmild

theorem debug (s : Session σ) (text : String) :
    s.Tells (s.emit .debug text) [⟨.debug, text⟩] :=
  emit s (by decide) text (by simp [Message.IsMild])

theorem info (s : Session σ) (text : String) : s.Tells (s.emit .info text) [⟨.info, text⟩] :=
  emit s (by decide) text (by simp [Message.IsMild])

theorem warn (s : Session σ) (text : String) : s.Tells (s.warn text) [⟨.warning, text⟩] where
  messages_eq := Array.toList_push
  warnings_eq := rfl
  mild := by simp [Message.IsMild]

end Session.Tells

/-- However a step ends, it has told nothing but mild messages. -/
theorem ExportM.Composed.tells {σ α : Type} {words : Prop} {step : ExportM σ α}
    (h : Composed words step) : ∀ s : Session σ, ∃ told, s.Tells (outcome step s).2 told := by
  induction h with
  | bind _ _ hstep hnext =>
    rename_i step next _ _
    intro s
    obtain ⟨told, htold⟩ := hstep s
    rw [outcome_bind]
    rcases hfirst : outcome step s with ⟨reason | a, t⟩
    · rw [hfirst] at htold
      exact ⟨told, htold⟩
    · obtain ⟨told', htold'⟩ := hnext a t
      rw [hfirst] at htold
      exact ⟨told ++ told', htold.trans htold'⟩
  | debug text => exact fun s => ⟨_, .debug s text⟩
  | info text => exact fun s => ⟨_, .info s text⟩
  | warn text => exact fun s => ⟨_, .warn s text⟩
  | pure | fail | overflow | resetBusWidth | observeBusWidth | busWidth | takeId | built | build =>
    exact fun _ => ⟨[], .of_same rfl rfl⟩

/-! A whole export. -/

namespace Emitter

/-- The output formats. -/
inductive IsFormat : {σ : Type} → Emitter σ → Prop
  | header (options : HeaderOptions) : IsFormat (Header.emitter options)
  | uvm (options : UvmOptions) : IsFormat (Uvm.emitter options)
  | ipxact (options : IpxactOptions) : IsFormat (Ipxact.emitter options)
  | html (setup : Html.Setup) : IsFormat (Html.emitter setup)

variable {σ : Type} {em : Emitter σ}

/-- All that an emitter does before its artifact is written is made of elementary steps,
also for a top that is refused. -/
theorem KeepsWords.artifact {P : Node → Prop} (h : em.KeepsWords P) (top : Node)
    (destination : Path) : Composed False (em.artifact top destination) :=
  .bind (.checkTop top) fun _ => .bind (.debug _) fun _ =>
    h.steps (fun hwords => hwords.elim) (fun hwords => hwords.elim) destination

theorem IsFormat.artifact (h : em.IsFormat) (top : Node) (destination : Path) :
    Composed False (em.artifact top destination) := by
  cases h with
  | header options => exact (Header.keepsWords options).artifact top destination
  | uvm options => exact (Uvm.keepsWords options).artifact top destination
  | ipxact options => exact (Ipxact.keepsWords options).artifact top destination
  | html setup => exact (Html.keepsWords setup).artifact top destination

/-- What is told until an artifact is made, or is given up, is mild. -/
theorem IsFormat.tells_produce (h : em.IsFormat) (top : Node) (destination : Path) :
    ∃ told, Session.Tells { state := em.initial } (em.produce top destination).2 told :=
  (h.artifact top destination).tells { state := em.initial }

end Emitter

/-- What the messages of an export tell of how it ended: a failure by one fatal message, in
the end and with its text, and a success by as many warnings as the report says. -/
structure Session.TellsOutcome {σ : Type} (s : Session σ) (causeOf : ExportError → String)
    (result : Except Stop Report) : Prop where
  failed_iff : (∃ e, result = .error (.failed e)) ↔ ∃ m ∈ s.messages.toList, m.severity = .fatal
  last : ∀ e, result = .error (.failed e) → ∃ before : List Message,
    s.messages.toList = before ++ [⟨.fatal, e.message (causeOf e)⟩] ∧
      ∀ m ∈ before, m.severity ≠ .fatal
  warnings_eq : ∀ report, result = .ok report →
    report.warnings = (Message.textsOf .warning s.messages.toList).length
  not_error : ∀ m ∈ s.messages.toList, m.severity ≠ .error

namespace Session.Tells

variable {σ : Type} {initial : σ} {s : Session σ} {told : List Message}
  {causeOf : ExportError → String}

theorem tellsOutcome_of_failed (h : Tells { state := initial } s told) (e : ExportError) :
    (s.tell causeOf (.failed e)).TellsOutcome causeOf (.error (.failed e)) := by
  have hmessages : (s.tell causeOf (.failed e)).messages.toList =
      told ++ [⟨.fatal, e.message (causeOf e)⟩] := by
    rw [tell, Session.emit, Array.toList_push, h.messages_eq]
    rfl
  constructor
  case failed_iff =>
    refine ⟨fun _ => ⟨⟨.fatal, e.message (causeOf e)⟩, ?_, rfl⟩, fun _ => ⟨e, rfl⟩⟩
    rw [hmessages]
    exact List.mem_append_right told (List.mem_singleton_self _)
  case last =>
    intro _ he
    cases he
    exact ⟨told, hmessages, fun m hm => (h.mild m hm).2⟩
  case warnings_eq =>
    intro _ hok
    cases hok
  case not_error =>
    intro m hm
    rw [hmessages, List.mem_append, List.mem_singleton] at hm
    rcases hm with hm | rfl
    · exact (h.mild m hm).1
    · exact Severity.noConfusion

theorem tellsOutcome_of_ok (h : Tells { state := initial } s told) {report : Report}
    (hreport : report.warnings = s.warnings) : s.TellsOutcome causeOf (.ok report) := by
  have hmessages : s.messages.toList = told := h.messages_eq
  constructor
  case failed_iff =>
    constructor
    · rintro ⟨_, hfailed⟩
      cases hfailed
    · rintro ⟨m, hm, hfatal⟩
      exact absurd hfatal (h.mild m (hmessages ▸ hm)).2
  case last =>
    intro _ hfailed
    cases hfailed
  case warnings_eq =>
    intro _ hok
    cases hok
    rw [hreport, h.warnings_eq, hmessages]
    exact Nat.zero_add _
  case not_error => exact fun m hm => (h.mild m (hmessages ▸ hm)).1

end Session.Tells

/-- An export in any of the formats, of any top, to any file system: if it returns, then its
messages tell how it ended, and a failure that is not one of the file system leaves the
file system as it was. -/
theorem Emitter.run_tells_outcome {σ World : Type} {em : Emitter σ} (hem : em.IsFormat)
    (fs : FileSystem (StateM World)) (top : Node) (destination : Path) {w w' : World}
    {result : Except Stop Report} {s : Session σ}
    (hrun : (em.run fs top destination).run w = ((result, s), w'))
    (hreturns : result ≠ .error .overflow) :
    s.TellsOutcome fs.causeOf result ∧
      ∀ e, result = .error (.failed e) → (∀ p, e ≠ .io p) → w' = w := by
  obtain ⟨told, htold⟩ := hem.tells_produce top destination
  unfold run at hrun
  rcases hproduce : em.produce top destination with ⟨reason | a, t⟩
  · rw [hproduce] at hrun htold
    have hended : ((Except.error reason, t.tell fs.causeOf reason), w) = ((result, s), w') := hrun
    cases hended
    cases reason with
    | overflow => exact absurd rfl hreturns
    | failed e => exact ⟨htold.tellsOutcome_of_failed e, fun _ _ _ => rfl⟩
  · rw [hproduce] at hrun htold
    simp only [StateT.run_bind] at hrun
    rcases hwrite : (fs.writeArtifact destination a).run w with ⟨e | files, w''⟩
    · obtain ⟨p, hp⟩ := fs.error_of_writeArtifact (congrArg Prod.fst hwrite)
      rw [hwrite] at hrun
      have hended : ((Except.error (.failed e), t.tell fs.causeOf (.failed e)), w'') =
          ((result, s), w') := hrun
      cases hended
      refine ⟨htold.tellsOutcome_of_failed e, fun e' he hother => ?_⟩
      cases he
      exact absurd hp (hother p)
    · rw [hwrite] at hrun
      let report : Report := ⟨em.explosion top, t.warnings, files⟩
      have hended : ((Except.ok report,
          t.emit .debug ("wrote " ++ toString files.length ++ " file(s)")), w'') =
          ((result, s), w') := hrun
      cases hended
      refine ⟨(htold.trans (.debug t _)).tellsOutcome_of_ok rfl, fun _ hfailed => ?_⟩
      cases hfailed

/-- A register array with gaps. -/
def gapMap : Node :=
  let sparse : Node := { Node.reg "sparse" with array := some ⟨[2], 8⟩ }
  { Node.addrmap "chip" with children := [sparse] }

/-- An array with overlapping registers behind one with gaps. -/
def crowdedMap : Node :=
  gapMap.addChild { Node.reg "dense" with array := some ⟨[2], 2⟩, offset := 64 }

/-- One export warns and is reported with that warning, the other one warns and fails. -/
theorem run_tells_outcome_of_crowdedMap :
    let ended (n : Node) := ((Ipxact.emitter {}).run Disk.fileSystem n ⟨"chip.xml"⟩).run {}
    (ended gapMap).1.1.map Report.warnings = .ok 1 ∧
      (ended gapMap).1.2.TellsOutcome Disk.fileSystem.causeOf (ended gapMap).1.1 ∧
      (ended crowdedMap).1.1.map Report.warnings =
        .error (.failed (.overlappingArray "chip.dense" 2 4)) ∧
      (ended crowdedMap).1.2.messages.toList.map Message.severity =
        [.debug, .info, .warning, .debug, .fatal] ∧
      (ended crowdedMap).1.2.TellsOutcome Disk.fileSystem.causeOf (ended crowdedMap).1.1 := by
  intro ended
  have hreturns {result : Except Stop Report} {answer : Except Stop Nat}
      (h : result.map Report.warnings = answer) (hanswer : answer ≠ .error .overflow) :
      result ≠ .error .overflow := by
    rintro rfl
    exact hanswer h.symm
  have hgap : (ended gapMap).1.1.map Report.warnings = .ok 1 := by decide +kernel
  have hcrowded : (ended crowdedMap).1.1.map Report.warnings =
      .error (.failed (.overlappingArray "chip.dense" 2 4)) := by decide +kernel
  refine ⟨hgap, ?_, hcrowded, by decide +kernel, ?_⟩
  · exact (Emitter.run_tells_outcome (.ipxact {}) Disk.fileSystem gapMap ⟨"chip.xml"⟩ rfl
      (hreturns hgap (by decide))).1
  · exact (Emitter.run_tells_outcome (.ipxact {}) Disk.fileSystem crowdedMap ⟨"chip.xml"⟩ rfl
      (hreturns hcrowded (by decide))).1

end RegisterMap
