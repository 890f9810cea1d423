import Mathlib.Data.List.Basic

/-!
# Labelled transition systems and their histories

A system is given by its initial states and its labelled steps. `Reaches h s` says that `s` is
reached by a run whose labels are `h`, newest first, so that a property of the past of a run is
a structural recursion on its history.
-/

namespace Transition

variable {σ ε : Type*}

structure System (σ ε : Type*) where
  init : σ → Prop
  step : σ → ε → σ → Prop

/-- The states reached by runs, each with the labels of its run, newest first. -/
inductive System.Reaches (S : System σ ε) : List ε → σ → Prop where
  | start {s : σ} : S.init s → S.Reaches [] s
  | next {h : List ε} {s t : σ} {e : ε} :
      S.Reaches h s → S.step s e t → S.Reaches (e :: h) t

/-- The same system with the steps that are not `allowed` left out. -/
def System.restrict (S : System σ ε) (allowed : σ → ε → Prop) : System σ ε where
  init := S.init
  step s e t := S.step s e t ∧ allowed s e

/-- The same system, started in a given state. -/
def System.startAt (S : System σ ε) (s : σ) : System σ ε where
  init t := t = s
  step := S.step

namespace System.Reaches

variable {S : System σ ε} {h : List ε} {s : σ}

/-- What holds initially and is kept by each step out of a reached state holds of every
reached state, together with its history. -/
theorem invariant {P : List ε → σ → Prop} (hr : S.Reaches h s)
    (start : ∀ s, S.init s → P [] s)
    (next : ∀ h s e t, S.Reaches h s → P h s → S.step s e t → P (e :: h) t) : P h s := by
  induction hr with
  | start hs => exact start _ hs
  | next hr hstep ih => exact next _ _ _ _ hr ih hstep

/-- The same rule for properties of the state alone. -/
theorem stateInvariant {P : σ → Prop} (hr : S.Reaches h s) (start : ∀ s, S.init s → P s)
    (next : ∀ s e t, P s → S.step s e t → P t) : P s :=
  hr.invariant (P := fun _ s => P s) start fun _ s e t _ hs hst => next s e t hs hst

/-- A run of a restricted system is a run of the whole system. -/
theorem of_restrict {allowed : σ → ε → Prop} (hr : (S.restrict allowed).Reaches h s) :
    S.Reaches h s := by
  induction hr with
  | start hs => exact .start hs
  | next _ hstep ih => exact .next ih hstep.1

/-- A run out of a reached state goes on from the run that reached it. -/
theorem append_startAt {h' : List ε} {t : σ} (hr : S.Reaches h s)
    (hr' : (S.startAt s).Reaches h' t) :
    S.Reaches (h' ++ h) t := by
  induction hr' with
  | start hs =>
    obtain rfl : _ = s := hs
    exact hr
  | next _ hstep ih => exact .next ih hstep

end System.Reaches

end Transition
