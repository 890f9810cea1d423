import PolyCache.Library.Transition

/-!
# Simulation

A run of one system is explained by a run of another if the two can be kept related: each step of
the first is followed by as many steps of the second as it takes, none included. The relation sees
both histories, so that it can say how the labels of the two runs correspond.
-/

namespace Transition

variable {σ τ ε δ : Type*}

namespace System.Reaches

variable {S : System σ ε} {h : List ε} {s : σ}

/-- Runs are followed by what `Q` accepts, step by step, with `R` kept. -/
theorem follow {Q : List δ → τ → Prop} {R : List ε → σ → List δ → τ → Prop} (hr : S.Reaches h s)
    (start : ∀ s, S.init s → ∃ t, Q [] t ∧ R [] s [] t)
    (next : ∀ h s e s' g t, R h s g t → Q g t → S.step s e s' →
      ∃ g' t', Q g' t' ∧ R (e :: h) s' g' t') :
    ∃ g t, Q g t ∧ R h s g t := by
  refine hr.invariant (P := fun h s => ∃ g t, Q g t ∧ R h s g t) (fun s hs => ?_) ?_
  · obtain ⟨t, hq, hrel⟩ := start s hs
    exact ⟨[], t, hq, hrel⟩
  · rintro h s e s' - ⟨g, t, hq, hrel⟩ hstep
    exact next h s e s' g t hrel hq hstep

end System.Reaches

end Transition
