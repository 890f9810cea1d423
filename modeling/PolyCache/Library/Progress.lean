import Mathlib.Order.Monotone.Basic
import Mathlib.Order.WellFounded
import PolyCache.Library.Transition

/-!
# Ends of runs

A system ends from a state if its runs from there have a bounded length. A measure that every step
lowers shows that it does. In what state it ends is told by the states that have no step.

A run that goes on for ever comes to its goal if no step raises the measure before, and some step
lowers it again and again.
-/

namespace Transition

variable {σ ε : Type*} {S : System σ ε} {s : σ}

def System.Ends (S : System σ ε) (s : σ) : Prop :=
  ∃ n, ∀ h t, (S.startAt s).Reaches h t → h.length ≤ n

/-- No step is possible. -/
def System.Final (S : System σ ε) (s : σ) : Prop := ∀ e t, ¬ S.step s e t

/-- Each step keeps `P` and lowers the measure. -/
theorem length_add_le {P : σ → Prop} {toGo : σ → Nat} (start : P s)
    (next : ∀ t e t', P t → S.step t e t' → P t' ∧ toGo t' < toGo t) {h : List ε} {t : σ}
    (hr : (S.startAt s).Reaches h t) : P t ∧ h.length + toGo t ≤ toGo s := by
  induction hr with
  | start hs =>
    obtain rfl : _ = s := hs
    simp [start]
  | next _ hstep ih =>
    obtain ⟨hp, hlength⟩ := ih
    obtain ⟨hp', hlt⟩ := next _ _ _ hp hstep
    refine ⟨hp', ?_⟩
    rw [List.length_cons]
    omega

theorem System.ends_of_measure {P : σ → Prop} {toGo : σ → Nat} (start : P s)
    (next : ∀ t e t', P t → S.step t e t' → P t' ∧ toGo t' < toGo t) : S.Ends s := by
  refine ⟨toGo s, fun h t hr => ?_⟩
  have hlength := (length_add_le start next hr).2
  omega

/-- A run without an end passes through reached states only. -/
theorem System.Reaches.of_run {run : ℕ → σ} {h : List ε} (hr : S.Reaches h (run 0))
    (hrun : ∀ n, ∃ e, S.step (run n) e (run (n + 1))) (n : ℕ) : ∃ h, S.Reaches h (run n) := by
  induction n with
  | zero => exact ⟨h, hr⟩
  | succ n ih =>
    obtain ⟨h, hn⟩ := ih
    obtain ⟨e, hstep⟩ := hrun n
    exact ⟨e :: h, hn.next hstep⟩

/-- The measure is least somewhere, and from there on it cannot be lowered. -/
theorem eventually_of_measure {α : Type*} [Preorder α] [WellFoundedLT α] (run : ℕ → σ)
    (Goal : σ → Prop) (toGo : σ → α)
    (le : ∀ n, ¬ Goal (run n) → ¬ Goal (run (n + 1)) → toGo (run (n + 1)) ≤ toGo (run n))
    (lt : ∀ n, ¬ Goal (run n) →
      ∃ m, n ≤ m ∧ (Goal (run m) ∨ toGo (run (m + 1)) < toGo (run m))) :
    ∃ n, Goal (run n) := by
  by_contra hnever
  push Not at hnever
  have hantitone : Antitone fun n => toGo (run n) :=
    antitone_nat_of_succ_le fun n => le n (hnever n) (hnever (n + 1))
  have hwell : WellFounded fun a b : α => a < b := wellFounded_lt
  obtain ⟨-, ⟨n, rfl⟩, hleast⟩ := hwell.has_min (Set.range fun n => toGo (run n)) ⟨_, 0, rfl⟩
  obtain ⟨m, hm, hgoal | hlt⟩ := lt n (hnever n)
  · exact hnever m hgoal
  · exact hleast _ ⟨m + 1, rfl⟩ (hlt.trans_le (hantitone hm))

end Transition
