import RegisterMap.Proofs.Produce

/-!
Steps of an export as they are put together. What holds of the elementary steps and
carries over to steps in a row holds of every step of an emitter, so emitters are gone
through once for all such properties. A step that asks for a word is kept apart, as it
stops where there is none.
-/

namespace RegisterMap.ExportM

variable {σ α β : Type}

/-- A step made of elementary ones. It stops for want of a word only where it is not
known that there are the words that it asks for. -/
inductive Composed (words : Prop) : {α : Type} → ExportM σ α → Prop
  | pure {α : Type} (a : α) : Composed words (Pure.pure a)
  | bind {α β : Type} {step : ExportM σ α} {next : α → ExportM σ β} : Composed words step →
      (∀ a, Composed words (next a)) → Composed words (step >>= next)
  | fail {α : Type} (e : ExportError) : Composed words (ExportM.fail e : ExportM σ α)
  | overflow {α : Type} : ¬ words → Composed words (stop .overflow : ExportM σ α)
  | debug (text : String) : Composed words (ExportM.debug text)
  | info (text : String) : Composed words (ExportM.info text)
  | warn (text : String) : Composed words (ExportM.warn text)
  | resetBusWidth : Composed words ExportM.resetBusWidth
  | observeBusWidth (width : Nat) : Composed words (ExportM.observeBusWidth width)
  | busWidth : Composed words ExportM.busWidth
  | takeId : Composed words ExportM.takeId
  | built : Composed words ExportM.built
  | build (f : σ → σ) : Composed words (ExportM.build f)

namespace Composed

variable {words : Prop}

theorem checked {o : Option α} (h : words → o.isSome = true) :
    Composed words (ExportM.checked o : ExportM σ α) := by
  cases o with
  | none => exact overflow fun hwords => by simpa using h hwords
  | some a => exact pure a

/-- A step behind a check that may fail. -/
theorem guarded {refused : Prop} [Decidable refused] {step : ExportM σ Unit} (e : ExportError)
    (hstep : Composed words step) :
    Composed words (do
      if refused then ExportM.fail e
      step) := by
  split
  · exact (fail e).bind fun _ => hstep
  · exact hstep

theorem forM {items : List α} {step : α → ExportM σ Unit}
    (hstep : ∀ a ∈ items, Composed words (step a)) : Composed words (items.forM step) := by
  induction items with
  | nil => exact pure ()
  | cons item rest ih =>
    exact (hstep item List.mem_cons_self).bind fun _ =>
      ih fun a ha => hstep a (List.mem_cons_of_mem item ha)

theorem mapM {items : List α} {step : α → ExportM σ β} (hstep : ∀ a, Composed words (step a)) :
    Composed words (items.mapM step) := by
  induction items with
  | nil => exact pure []
  | cons item rest ih =>
    rw [List.mapM_cons]
    exact (hstep item).bind fun b => ih.bind fun bs => pure (b :: bs)

theorem checkRegisterArray (e : Element) :
    Composed words (RegisterMap.checkRegisterArray e : ExportM σ StrideCheck) := by
  unfold RegisterMap.checkRegisterArray
  cases e.node.strideCheck with
  | contiguous => exact pure _
  | overlapping stride size => exact (debug _).bind fun _ => (fail _).bind fun _ => pure _
  | sparse stride size =>
    simp only
    split
    · exact (info _).bind fun _ => pure _
    · exact pure _

theorem checkTop (top : Node) : Composed words (Emitter.checkTop top : ExportM σ Unit) := by
  unfold Emitter.checkTop
  cases top.validate with
  | ok _ =>
    simp only
    split
    · exact pure ()
    · exact (fail _).bind fun _ => pure ()
  | error e =>
    simp only
    split
    · exact fail _
    · exact (fail _).bind fun _ => fail _

end Composed

end RegisterMap.ExportM
