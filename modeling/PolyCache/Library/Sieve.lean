import Mathlib.Data.List.Basic

/-!
# The SIEVE algorithm

A queue of items with a visited bit each, and a hand in it. The queue is cut at the hand: `ahead`
are the items from the hand to the head, in the order in which the hand meets them, and `behind`
those from the tail up to the hand. The hand is null if nothing is ahead. An eviction walks towards
the head, clears the bits it passes, goes on from the tail when it has passed the head, and takes
the first item whose bit is clear; the hand stays at the next one towards the head.
-/

namespace Sieve

variable {α : Type*}

structure Queue (α : Type*) where
  ahead : List (α × Bool)
  behind : List (α × Bool)

namespace Queue

/-- From the tail to the head. -/
def items (q : Queue α) : List (α × Bool) := q.behind ++ q.ahead

variable [DecidableEq α]

/-- Set the bit of an item. -/
def touch (q : Queue α) (a : α) : Queue α where
  ahead := q.ahead.map fun x => if x.1 = a then (a, true) else x
  behind := q.behind.map fun x => if x.1 = a then (a, true) else x

/-- A new item goes to the head. -/
def add (q : Queue α) (a : α) : Queue α :=
  if a ∈ q.items.map Prod.fst then q
  else if q.ahead = [] then { q with behind := q.behind ++ [(a, false)] }
  else { q with ahead := q.ahead ++ [(a, false)] }

/-- A hand at the item goes on to the next one towards the head. -/
def remove (q : Queue α) (a : α) : Queue α where
  ahead := q.ahead.filter fun x => x.1 ≠ a
  behind := q.behind.filter fun x => x.1 ≠ a

end Queue

def clear (x : α × Bool) : α × Bool := (x.1, false)

/-- `Evicts q a r`: the eviction from `q` takes `a` and leaves `r`. -/
inductive Evicts : Queue α → α → Queue α → Prop where
  | wrap {behind : List (α × Bool)} {a : α} {r : Queue α} (some : behind ≠ [])
      (rest : Evicts ⟨behind, []⟩ a r) : Evicts ⟨[], behind⟩ a r
  | pass {b a : α} {ahead behind : List (α × Bool)} {r : Queue α}
      (rest : Evicts ⟨ahead, behind ++ [(b, false)]⟩ a r) : Evicts ⟨(b, true) :: ahead, behind⟩ a r
  | take {a : α} {ahead behind : List (α × Bool)} :
      Evicts ⟨(a, false) :: ahead, behind⟩ a ⟨ahead, behind⟩

variable {q r r' : Queue α} {a a' : α} {ahead behind passed : List (α × Bool)}

theorem Evicts.unique (h : Evicts q a r) (h' : Evicts q a' r') : a = a' ∧ r = r' := by
  induction h with
  | wrap _ _ ih =>
    cases h' with
    | wrap _ rest' => exact ih rest'
  | pass _ ih =>
    cases h' with
    | pass rest' => exact ih rest'
  | take =>
    cases h' with
    | take => exact ⟨rfl, rfl⟩

/-- The hand passes visited items and clears their bits. -/
theorem Evicts.pass_all (hvisited : ∀ x ∈ passed, x.2 = true)
    (h : Evicts ⟨ahead, behind ++ passed.map clear⟩ a r) :
    Evicts ⟨passed ++ ahead, behind⟩ a r := by
  induction passed generalizing behind with
  | nil => simpa using h
  | cons x passed ih =>
    obtain ⟨b, visited⟩ := x
    obtain rfl : visited = true := hvisited _ List.mem_cons_self
    refine .pass (ih (fun x hx => hvisited x (List.mem_cons_of_mem _ hx)) ?_)
    simpa [clear] using h

/-- If there is a clear bit ahead, the eviction takes one of those items. -/
theorem Evicts.mem_ahead (h : Evicts q a r) (hclear : ∃ x ∈ q.ahead, x.2 = false) :
    (a, false) ∈ q.ahead := by
  induction h with
  | wrap => simp at hclear
  | pass _ ih =>
    obtain ⟨x, hx, hfalse⟩ := hclear
    obtain rfl | hx := List.mem_cons.mp hx
    · simp at hfalse
    · exact List.mem_cons_of_mem _ (ih ⟨x, hx, hfalse⟩)
  | take => exact List.mem_cons_self

/-- Splitting a list at the first item whose bit is clear. -/
theorem split_clear {β : Type*} (bit : β → Bool) (l : List β) : (∀ x ∈ l, bit x = true) ∨
    ∃ passed x rest, l = passed ++ x :: rest ∧ (∀ y ∈ passed, bit y = true) ∧ bit x = false := by
  induction l with
  | nil => exact Or.inl (by simp)
  | cons x l ih =>
    cases hbit : bit x with
    | false => exact Or.inr ⟨[], x, l, rfl, by simp, hbit⟩
    | true =>
      obtain hall | ⟨passed, y, rest, rfl, hpassed, hy⟩ := ih
      · exact Or.inl (by simpa [hbit] using hall)
      · exact Or.inr ⟨x :: passed, y, rest, rfl, by simpa [hbit] using hpassed, hy⟩

/-- With all bits set the hand goes around once, and takes the item it started at. -/
theorem evicts_around {x : α × Bool} (hvisited : ∀ y ∈ x :: ahead, y.2 = true) :
    Evicts ⟨x :: ahead, []⟩ x.1 ⟨ahead.map clear, []⟩ := by
  have hwrap : Evicts ⟨[], [] ++ (x :: ahead).map clear⟩ x.1 ⟨ahead.map clear, []⟩ :=
    .wrap (by simp) .take
  simpa using Evicts.pass_all hvisited hwrap

theorem Evicts.pass_take (hvisited : ∀ x ∈ passed, x.2 = true) :
    Evicts ⟨passed ++ (a, false) :: ahead, behind⟩ a ⟨ahead, behind ++ passed.map clear⟩ :=
  pass_all hvisited .take

/-- The hand passes the head. -/
theorem Evicts.pass_wrap (hvisited : ∀ x ∈ ahead, x.2 = true) (hne : behind ++ ahead ≠ [])
    (h : Evicts ⟨behind ++ ahead.map clear, []⟩ a r) : Evicts ⟨ahead, behind⟩ a r := by
  have hwrap : Evicts ⟨[], behind ++ ahead.map clear⟩ a r := .wrap (by simpa using hne) h
  have hpass : Evicts ⟨ahead ++ [], behind⟩ a r := pass_all hvisited hwrap
  rwa [List.append_nil] at hpass

/-- If a bit is clear, the victim's is. -/
theorem Evicts.mem_items (h : Evicts q a r) (hclear : ∃ x ∈ q.items, x.2 = false) :
    (a, false) ∈ q.items := by
  obtain ⟨ahead, behind⟩ := q
  obtain hall | ⟨passed, ⟨b, bit⟩, rest, rfl, hpassed, rfl⟩ := split_clear Prod.snd ahead
  · -- the hand reaches the clear bit behind it before those it cleared itself
    obtain hall' | ⟨passed, ⟨b, bit⟩, rest, rfl, hpassed, rfl⟩ := split_clear Prod.snd behind
    · obtain ⟨x, hx, hfalse⟩ := hclear
      have htrue : x.2 = true := (List.mem_append.mp hx).elim (hall' x) (hall x)
      rw [htrue] at hfalse
      contradiction
    · have htake : Evicts ⟨passed ++ (b, false) :: (rest ++ ahead.map clear), []⟩ b _ :=
        .pass_take hpassed
      have hvictim := h.unique (.pass_wrap hall (by simp) (by simpa using htake))
      simp [Queue.items, hvictim.1]
  · have hvictim := h.unique (.pass_take hpassed)
    simp [Queue.items, hvictim.1]

/-- There is a victim in every queue that has items. -/
theorem Evicts.total (hne : q.items ≠ []) : ∃ a r, Evicts q a r := by
  obtain ⟨ahead, behind⟩ := q
  obtain hall | ⟨passed, ⟨a, bit⟩, rest, rfl, hpassed, rfl⟩ := split_clear Prod.snd ahead
  · obtain hall' | ⟨passed, ⟨a, bit⟩, rest, hsplit, hpassed, rfl⟩ :=
      split_clear Prod.snd (behind ++ ahead.map clear)
    · cases hcase : behind ++ ahead.map clear with
      | nil =>
        obtain ⟨rfl, hnil⟩ := List.append_eq_nil_iff.mp hcase
        exact absurd (by simpa [Queue.items] using hnil) hne
      | cons x items =>
        rw [hcase] at hall'
        exact ⟨_, _, .pass_wrap hall hne (hcase ▸ evicts_around hall')⟩
    · have htake : Evicts ⟨behind ++ ahead.map clear, []⟩ a ⟨rest, [] ++ passed.map clear⟩ := by
        rw [hsplit]
        exact .pass_take hpassed
      exact ⟨_, _, .pass_wrap hall hne htake⟩
  · exact ⟨a, _, .pass_take hpassed⟩

end Sieve
