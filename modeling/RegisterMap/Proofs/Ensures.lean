import RegisterMap.Proofs.Walk

/-!
Properties of what an emitter has built. A step ensures one from another when
it leaves the one whenever it starts from the other and yields, and when it
stops for certain reasons only. There is one rule for steps in a row and one
for each elementary step; messages and the width of the bus are not looked at.
-/

namespace RegisterMap.ExportM

variable {σ α β ι : Type}

/-- A step that leads from what is built to what is built with a value, and may
stop for some reasons. -/
structure Ensures (pre : σ → Prop) (step : ExportM σ α) (post : α → σ → Prop)
    (may : Stop → Prop) : Prop where
  yields : ∀ s a t, pre s.state → Yields step s a t → post a t.state
  stops : ∀ s reason, pre s.state → Stops step s reason → may reason

/-- A step may stop for any reason. -/
def anyReason (_ : Stop) : Prop := True

namespace Ensures

variable {pre pre' : σ → Prop} {post post' : α → σ → Prop} {may : Stop → Prop}

theorem bind {step : ExportM σ α} {next : α → ExportM σ β} {m : α → σ → Prop}
    {post : β → σ → Prop} (hstep : Ensures pre step m may)
    (hnext : ∀ a, Ensures (m a) (next a) post may) : Ensures pre (step >>= next) post may where
  yields s b u hpre h := by
    obtain ⟨a, t, hfirst, hrest⟩ := yields_bind.1 h
    exact (hnext a).yields t b u (hstep.yields s a t hpre hfirst) hrest
  stops s reason hpre h := by
    rcases stops_bind.1 h with hfirst | ⟨a, t, hfirst, hrest⟩
    · exact hstep.stops s reason hpre hfirst
    · exact (hnext a).stops t reason (hstep.yields s a t hpre hfirst) hrest

theorem weaken {step : ExportM σ α} (h : Ensures pre step post may) (hpre : ∀ a, pre' a → pre a)
    (hpost : ∀ a b, post a b → post' a b) : Ensures pre' step post' may where
  yields s a t hs hstep := hpost a t.state (h.yields s a t (hpre s.state hs) hstep)
  stops s reason hs hstep := h.stops s reason (hpre s.state hs) hstep

/-- What holds from each single start holds from all of them. -/
theorem of_each {step : ExportM σ α} (h : ∀ a, pre a → Ensures (· = a) step post may) :
    Ensures pre step post may where
  yields s a t hs hstep := (h s.state hs).yields s a t rfl hstep
  stops s reason hs hstep := (h s.state hs).stops s reason rfl hstep

theorem of_not {step : ExportM σ α} (h : ∀ a, ¬ pre a) : Ensures pre step post may where
  yields s _ _ hs _ := absurd hs (h s.state)
  stops s _ hs _ := absurd hs (h s.state)

theorem pure {a : α} (h : ∀ b, pre b → post a b) : Ensures pre (Pure.pure a) post may where
  yields s b t hs hstep := by
    obtain ⟨rfl, rfl⟩ := yields_pure.1 hstep
    exact h s.state hs
  stops _ _ _ hstep := absurd hstep not_stops_pure

theorem stop {reason : Stop} (h : may reason) :
    Ensures pre (ExportM.stop reason : ExportM σ α) post may where
  yields _ _ _ _ hstep := absurd hstep not_yields_stop
  stops _ _ _ hstep := stops_stop.1 hstep ▸ h

theorem fail {e : ExportError} (h : may (.failed e)) :
    Ensures pre (ExportM.fail e : ExportM σ α) post may :=
  stop h

theorem checked {o : Option α} (h : may .overflow) :
    Ensures pre (ExportM.checked o) (fun a b => o = some a ∧ pre b) may where
  yields s a t hs hstep := by
    obtain ⟨hsome, rfl⟩ := yields_checked.1 hstep
    exact ⟨hsome, hs⟩
  stops _ _ _ hstep := (stops_checked.1 hstep).2 ▸ h

theorem modify {f : Session σ → Session σ} {post : Unit → σ → Prop}
    (h : ∀ s, pre s.state → post () (f s).state) : Ensures pre (modify f) post may where
  yields s _ t hs hstep := by
    obtain rfl := yields_modify.1 hstep
    exact h s hs
  stops _ _ _ hstep := absurd hstep not_stops_modify

theorem build {f : σ → σ} {post : Unit → σ → Prop} (h : ∀ a, pre a → post () (f a)) :
    Ensures pre (ExportM.build f) post may :=
  modify fun s hs => h s.state hs

/-- A step that only tells something. -/
theorem debug (text : String) : Ensures pre (ExportM.debug text) (fun _ => pre) may :=
  modify fun _ hs => hs

theorem info (text : String) : Ensures pre (ExportM.info text) (fun _ => pre) may :=
  modify fun _ hs => hs

theorem warn (text : String) : Ensures pre (ExportM.warn text) (fun _ => pre) may :=
  modify fun _ hs => hs

theorem resetBusWidth : Ensures pre ExportM.resetBusWidth (fun _ => pre) may :=
  modify fun _ hs => hs

theorem observeBusWidth (width : Nat) :
    Ensures pre (ExportM.observeBusWidth width) (fun _ => pre) may :=
  modify fun _ hs => hs

theorem busWidth : Ensures pre ExportM.busWidth (fun _ => pre) may where
  yields s width t hs hstep := by
    obtain ⟨_, rfl⟩ := yields_busWidth.1 hstep
    exact hs
  stops _ _ _ hstep := absurd hstep not_stops_busWidth

theorem takeId : Ensures pre ExportM.takeId (fun _ => pre) may where
  yields s id t hs hstep := by
    obtain ⟨_, rfl⟩ := yields_takeId.1 hstep
    exact hs
  stops _ _ _ hstep := absurd hstep not_stops_takeId

/-- A look at what is built. -/
theorem built : Ensures pre ExportM.built (fun a b => b = a ∧ pre a) may where
  yields s a t hs hstep := by
    obtain ⟨rfl, rfl⟩ := yields_built.1 hstep
    exact ⟨rfl, hs⟩
  stops _ _ _ hstep := absurd hstep not_stops_built

/-- A look at what is built decides how to go on from there. -/
theorem built_bind {next : σ → ExportM σ α} (h : ∀ a, pre a → Ensures (· = a) (next a) post may) :
    Ensures pre (ExportM.built >>= next) post may := by
  apply of_each
  intro a ha
  refine built.bind fun b => of_each fun c hc => ?_
  obtain ⟨rfl, rfl⟩ := hc
  exact h c ha

/-- A step behind a check that does not fail. -/
theorem passed {refused : Prop} [Decidable refused] (e : ExportError) {step : ExportM σ Unit}
    {post : Unit → σ → Prop} (h : ¬ refused) (hstep : Ensures pre step post may) :
    Ensures pre (do
      if refused then ExportM.fail e
      step) post may := by
  rwa [if_neg h]

/-- A step for each of some items, which may each establish something for good. -/
theorem forM {items : List β} {step : β → ExportM σ Unit} {inv : σ → Prop} {fact : β → Prop}
    (h : ∀ b ∈ items, Ensures inv (step b) (fun _ a => inv a ∧ fact b) may) :
    Ensures inv (forM items step) (fun _ a => inv a ∧ ∀ b ∈ items, fact b) may := by
  induction items with
  | nil => exact pure fun _ ha => ⟨ha, by simp⟩
  | cons item rest ih =>
    rw [List.forM_cons]
    refine (h item List.mem_cons_self).bind fun _ => ?_
    have hrest := ih fun b hb => h b (List.mem_cons_of_mem item hb)
    exact of_each fun a ha => hrest.weaken (fun b hb => hb ▸ ha.1)
      fun _ b hb => ⟨hb.1, List.forall_mem_cons.2 ⟨ha.2, hb.2⟩⟩

end Ensures

/-- A step that keeps a property of what is built, whichever of a family, and
establishes something for good. -/
def Settles (inv : ι → σ → Prop) (step : ExportM σ α) (fact : Prop) (may : Stop → Prop) : Prop :=
  ∀ i, Ensures (inv i) step (fun _ a => inv i a ∧ fact) may

namespace Settles

variable {inv : ι → σ → Prop} {fact known : Prop} {may : Stop → Prop} {step : ExportM σ α}

theorem of_keeps (h : ∀ i, Ensures (inv i) step (fun _ => inv i) may) :
    Settles inv step True may :=
  fun i => (h i).weaken (fun _ ha => ha) fun _ _ ha => ⟨ha, trivial⟩

theorem imp (h : Settles inv step known may) (himp : known → fact) : Settles inv step fact may :=
  fun i => (h i).weaken (fun _ ha => ha) fun _ _ ha => ⟨ha.1, himp ha.2⟩

/-- What one step has established is known to the next. -/
theorem next {rest : α → ExportM σ β} (hstep : Settles inv step known may)
    (hrest : known → ∀ a, Settles inv (rest a) fact may) :
    Settles inv (step >>= rest) fact may := by
  intro i
  refine (hstep i).bind fun a => Ensures.of_each fun b hb => ?_
  exact (hrest hb.2 a i).weaken (fun c hc => hc ▸ hb.1) fun _ _ hc => hc

theorem pure (a : α) : Settles inv (Pure.pure a) True may := of_keeps fun _ => .pure fun _ ha => ha

theorem checked {o : Option α} (h : may .overflow) : Settles inv (ExportM.checked o) True may :=
  fun _ => (Ensures.checked h).weaken (fun _ ha => ha) fun _ _ ha => ⟨ha.2, trivial⟩

theorem build {f : σ → σ} (h : ∀ i a, inv i a → inv i (f a)) :
    Settles inv (ExportM.build f) True may :=
  of_keeps fun i => .build (h i)

/-- A step for a text that may be absent, and the like. -/
theorem skip : Settles inv (Pure.pure () : ExportM σ Unit) True may := pure ()

theorem warn (text : String) : Settles inv (ExportM.warn text) True may :=
  of_keeps fun _ => .warn text

theorem built : Settles inv (ExportM.built : ExportM σ σ) True may :=
  of_keeps fun _ => Ensures.built.weaken (fun _ h => h) fun _ _ h => h.1 ▸ h.2

theorem built_bind {rest : σ → ExportM σ α}
    (h : ∀ i a, inv i a → Ensures (· = a) (rest a) (fun _ b => inv i b ∧ fact) may) :
    Settles inv (ExportM.built >>= rest) fact may :=
  fun i => .built_bind (h i)

theorem forM {items : List α} {step : α → ExportM σ Unit} {fact : α → Prop}
    (h : ∀ a ∈ items, Settles inv (step a) (fact a) may) :
    Settles inv (forM items step) (∀ a ∈ items, fact a) may :=
  fun i => Ensures.forM fun a ha => h a ha i

theorem mapM {items : List α} {step : α → ExportM σ β} (h : ∀ a, Settles inv (step a) True may) :
    Settles inv (items.mapM step) True may := by
  induction items with
  | nil => exact pure []
  | cons item rest ih =>
    rw [List.mapM_cons]
    exact (h item).next fun _ _ => ih.next fun _ _ => pure _

end Settles

end RegisterMap.ExportM
