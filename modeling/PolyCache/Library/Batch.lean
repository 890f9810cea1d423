import Mathlib.Data.List.Nodup
import Mathlib.Logic.Function.Basic

/-!
# Events taken in batches

A loop takes several events at once and then handles one after the other, although handling one may
change what the rest are about. `Pending` says that nothing has: the source of each event that is
still to be handled is in the state in which it was when the batch was taken, and the event is true
of it. Handling an event changes its own source, and sources that no event can be about.
-/

namespace Batch

variable {F E C : Type*}

/-- `now` and `before` are the states of the sources, now and when the batch was taken. The events
of the other sources, those that are not `ours`, are handled without a look at a state. -/
structure Pending (source : E → F) (ours : F → Prop) (about : E → C → Prop) (now before : F → C)
    (batch : List E) : Prop where
  distinct : (batch.map source).Nodup
  same : ∀ e ∈ batch, ours (source e) → now (source e) = before (source e)
  stands : ∀ e ∈ batch, ours (source e) → about e (now (source e))

namespace Pending

variable {source : E → F} {ours : F → Prop} {about : E → C → Prop} {now before now' : F → C}
  {e : E} {batch : List E}

theorem empty (now before : F → C) : Pending source ours about now before [] := by
  constructor <;> simp

theorem take (distinct : (batch.map source).Nodup)
    (stands : ∀ e ∈ batch, ours (source e) → about e (now (source e))) :
    Pending source ours about now now batch :=
  ⟨distinct, fun _ _ _ => rfl, stands⟩

theorem head (h : Pending source ours about now before (e :: batch)) (hours : ours (source e)) :
    about e (now (source e)) := by
  apply h.stands e _ hours
  exact List.mem_cons_self

/-- The first event is handled, which changes nothing but its own source. -/
theorem handle (h : Pending source ours about now before (e :: batch))
    (frame : ∀ f, f ≠ source e → now' f = now f) :
    Pending source ours about now' before batch := by
  have hnodup := h.distinct
  rw [List.map_cons, List.nodup_cons] at hnodup
  have hframe : ∀ e' ∈ batch, now' (source e') = now (source e') := by
    intro e' he'
    apply frame
    intro heq
    exact hnodup.1 (heq ▸ List.mem_map_of_mem he')
  constructor
  · exact hnodup.2
  · intro e' he' hours
    rw [hframe e' he']
    exact h.same e' (List.mem_cons_of_mem _ he') hours
  · intro e' he' hours
    rw [hframe e' he']
    exact h.stands e' (List.mem_cons_of_mem _ he') hours

/-- A source is replaced that no event could be about. -/
theorem update [DecidableEq F] (h : Pending source ours about now before batch) {f : F}
    (quiet : ∀ e, ¬ about e (now f)) (c : C) :
    Pending source ours about (Function.update now f c) before batch := by
  have hframe : ∀ e ∈ batch, ours (source e) →
      Function.update now f c (source e) = now (source e) := by
    intro e he hours
    apply Function.update_of_ne
    rintro rfl
    exact quiet e (h.stands e he hours)
  constructor
  · exact h.distinct
  · intro e he hours
    rw [hframe e he hours]
    exact h.same e he hours
  · intro e he hours
    rw [hframe e he hours]
    exact h.stands e he hours

end Pending

end Batch
