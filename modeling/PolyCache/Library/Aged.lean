import Mathlib.Data.List.Basic
import Mathlib.Data.List.Pairwise

/-!
# Lists in the order of time

`Aged time now l` says that a list has its elements in the order of their times, the latest first.
This is how a list comes to be ordered that takes each new element in front and never moves the
others.
-/

/-- The times of the elements go down, and all of them lie before `now`. -/
structure Aged {K : Type*} (time : K → Nat) (now : Nat) (l : List K) : Prop where
  sorted : l.Pairwise fun a b => time b < time a
  past : ∀ a ∈ l, time a < now

namespace Aged

variable {K : Type*} {time time' : K → Nat} {now now' : Nat} {l l' : List K} {a : K}

theorem nil : Aged time now [] := ⟨List.Pairwise.nil, by simp⟩

theorem sublist (h : Aged time now l) (hsub : l'.Sublist l) : Aged time now l' :=
  ⟨h.sorted.sublist hsub, fun a ha => h.past a (hsub.subset ha)⟩

/-- The times of what is not in the list do not matter. -/
theorem congr (h : Aged time now l) (hnow : now ≤ now') (htime : ∀ a ∈ l, time' a = time a) :
    Aged time' now' l where
  sorted := h.sorted.imp_of_mem fun ha hb hlt => by rwa [htime _ ha, htime _ hb]
  past a ha := by
    rw [htime a ha]
    exact Nat.lt_of_lt_of_le (h.past a ha) hnow

/-- What comes now goes in front. -/
theorem cons (h : Aged time now l) (ha : time a = now) : Aged time (now + 1) (a :: l) where
  sorted := List.pairwise_cons.mpr ⟨fun b hb => ha ▸ h.past b hb, h.sorted⟩
  past := List.forall_mem_cons.mpr ⟨by omega, fun b hb => Nat.lt_succ_of_lt (h.past b hb)⟩

/-- The last element is the oldest one. -/
theorem last_lt (h : Aged time now (l ++ [a])) {b : K} (hb : b ∈ l) : time a < time b :=
  (List.pairwise_append.mp h.sorted).2.2 b hb a (List.mem_singleton_self a)

end Aged
