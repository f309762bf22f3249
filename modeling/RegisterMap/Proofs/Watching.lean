import RegisterMap.Proofs.Produce

/-!
Exports that are watched. In front of each register a watched emitter looks at what is built,
and stops unless it is in order. Where the walk gets to its end all the same, the export is
the one that is not watched, and all registers have found what is built in order.
-/

namespace RegisterMap.Emitter

open ExportM

variable {σ : Type} (em : Emitter σ) (inOrder : σ → Bool)

/-- An emitter that stops where what is built is not in order when a register comes next. -/
def watching : Emitter σ :=
  { em with
    register := fun e parent inside => do
      if inOrder (← .built) then em.register e parent inside else .stop .overflow }

variable {em inOrder}

theorem yields_register_watching {e parent : Element} {inside : ExportM σ Unit} {s t : Session σ}
    {u : Unit} (h : inOrder s.state = true) (hstep : Yields (em.register e parent inside) s u t) :
    Yields ((em.watching inOrder).register e parent inside) s u t := by
  refine yields_bind.2 ⟨s.state, s, yields_built.2 ⟨rfl, rfl⟩, ?_⟩
  rwa [if_pos h]

end RegisterMap.Emitter
