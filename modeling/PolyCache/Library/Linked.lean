import Mathlib.Logic.Function.Basic
import Mathlib.Data.List.Induction
import Mathlib.Data.List.Nodup

/-!
# Doubly linked lists on a heap

A heap maps addresses to cells with a value and two links. `Seg heap before l after` says that the
cells of `l` are linked one after the other, the first one back to `before` and the last one on to
`after`. Reading or writing through an address that holds no cell fails.
-/

namespace Linked

variable {ℓ α : Type*}

structure Cell (ℓ α : Type*) where
  val : α
  prev : Option ℓ
  next : Option ℓ

abbrev Heap (ℓ α : Type*) := ℓ → Option (Cell ℓ α)

/-- The address of the first cell, or `after` if there is none. -/
def first (l : List (ℓ × α)) (after : Option ℓ) : Option ℓ := (l.head?.map Prod.fst).or after

/-- The address of the last cell, or `before` if there is none. -/
def last (before : Option ℓ) (l : List (ℓ × α)) : Option ℓ := (l.getLast?.map Prod.fst).or before

def Seg (heap : Heap ℓ α) (before : Option ℓ) : List (ℓ × α) → Option ℓ → Prop
  | [], _ => True
  | c :: l, after => heap c.1 = some ⟨c.2, before, first l after⟩ ∧ Seg heap (some c.1) l after

variable {heap heap' : Heap ℓ α} {before after : Option ℓ} {l m : List (ℓ × α)} {c : ℓ × α}

@[simp] theorem first_nil : first ([] : List (ℓ × α)) after = after := rfl
@[simp] theorem first_cons : first (c :: l) after = some c.1 := rfl
@[simp] theorem last_nil : last before ([] : List (ℓ × α)) = before := rfl

@[simp] theorem last_concat : last before (l ++ [c]) = some c.1 := by simp [last]

theorem last_cons : last before (c :: l) = last (some c.1) l := by
  rw [last, last, List.getLast?_cons]
  cases l.getLast? <;> rfl

theorem first_append : first (l ++ m) after = first l (first m after) := by
  cases l <;> rfl

theorem last_append : last before (l ++ m) = last (last before l) m := by
  induction l generalizing before with
  | nil => rfl
  | cons c l ih => rw [List.cons_append, last_cons, last_cons, ih]

theorem last_of_ne_nil (h : l ≠ []) : last before l = last none l := by
  obtain ⟨l, c, rfl⟩ := (List.eq_nil_or_concat' l).resolve_left h
  rw [last_concat, last_concat]

theorem last_reverse : last none l.reverse = first l none := by
  rw [last, first, List.getLast?_reverse]

theorem mem_of_last {n : ℓ} (h : last none l = some n) : n ∈ l.map Prod.fst := by
  rw [last, Option.or_none, ← List.getLast?_map] at h
  exact List.mem_of_getLast? h

theorem seg_append : Seg heap before (l ++ m) after ↔
    Seg heap before l (first m after) ∧ Seg heap (last before l) m after := by
  induction l generalizing before with
  | nil => simp [Seg]
  | cons c l ih => simp only [List.cons_append, Seg, ih, first_append, last_cons, and_assoc]

namespace Seg

theorem frame (h : Seg heap before l after) (heq : ∀ n ∈ l.map Prod.fst, heap' n = heap n) :
    Seg heap' before l after := by
  induction l generalizing before with
  | nil => trivial
  | cons c l ih =>
    exact ⟨(heq _ List.mem_cons_self).trans h.1,
      ih h.2 fun n hn => heq n (List.mem_cons_of_mem _ hn)⟩

/-- What the cell in the middle of a segment holds. -/
theorem middle (h : Seg heap before (l ++ c :: m) after) :
    heap c.1 = some ⟨c.2, last before l, first m after⟩ := (seg_append.mp h).2.1

end Seg

/-! ## Writing to a cell -/

variable [DecidableEq ℓ]

/-- Write a cell through its address. -/
def modify (heap : Heap ℓ α) (n : ℓ) (f : Cell ℓ α → Cell ℓ α) : Option (Heap ℓ α) :=
  (heap n).map fun x => Function.update heap n (some (f x))

/-- `m->next = after`, unless there is no `m`. -/
def linkNext (heap : Heap ℓ α) (m after : Option ℓ) : Option (Heap ℓ α) :=
  m.elim (some heap) fun m => modify heap m fun x => { x with next := after }

/-- `m->prev = before`, unless there is no `m`. -/
def linkPrev (heap : Heap ℓ α) (m before : Option ℓ) : Option (Heap ℓ α) :=
  m.elim (some heap) fun m => modify heap m fun x => { x with prev := before }

/-- Delete the cell and those after it, each when its link has been read. -/
def dispose : Nat → Option ℓ → Heap ℓ α → Option (Heap ℓ α)
  | 0, _, _ => none
  | _ + 1, none, heap => some heap
  | rounds + 1, some n, heap => do
    let x ← heap n
    dispose rounds x.next (Function.update heap n none)

namespace Seg

theorem update (h : Seg heap before l after) {n : ℓ} (hn : n ∉ l.map Prod.fst)
    (x : Option (Cell ℓ α)) : Seg (Function.update heap n x) before l after :=
  h.frame fun k hk => Function.update_of_ne (by rintro rfl; exact hn hk) _ _

/-- A new value for a cell. -/
theorem write (h : Seg heap before (l ++ c :: m) after) (nd : ((l ++ c :: m).map Prod.fst).Nodup)
    (v : α) : Seg (Function.update heap c.1 (some ⟨v, last before l, first m after⟩)) before
      (l ++ (c.1, v) :: m) after := by
  obtain ⟨hl, -, hm⟩ := seg_append.mp h
  rw [List.map_append, List.map_cons, List.nodup_middle, List.nodup_cons, List.mem_append] at nd
  refine seg_append.mpr ⟨hl.update (fun hn => nd.1 (Or.inl hn)) _, Function.update_self .., ?_⟩
  exact hm.update (fun hn => nd.1 (Or.inr hn)) _

/-- Another cell after a segment. -/
theorem linkNext (h : Seg heap before l after) (nd : (l.map Prod.fst).Nodup)
    (after' : Option ℓ) : ∃ heap', Linked.linkNext heap (last none l) after' = some heap' ∧
      Seg heap' before l after' ∧ ∀ n ∉ l.map Prod.fst, heap' n = heap n := by
  induction l using List.reverseRecOn with
  | nil => exact ⟨heap, rfl, trivial, fun _ _ => rfl⟩
  | append_singleton l c =>
    obtain ⟨hl, hc, -⟩ := seg_append.mp h
    rw [List.map_append, List.map_singleton, List.nodup_append] at nd
    have hnot : c.1 ∉ l.map Prod.fst := fun hn => nd.2.2 _ hn _ List.mem_cons_self rfl
    refine ⟨_, by rw [last_concat, Linked.linkNext, Option.elim_some, modify, hc]; rfl, ?_, ?_⟩
    · exact seg_append.mpr ⟨hl.update hnot _, Function.update_self .., trivial⟩
    · intro n hn
      refine Function.update_of_ne ?_ _ _
      rintro rfl
      simp at hn

/-- Another cell before a segment. -/
theorem linkPrev (h : Seg heap before l after) (nd : (l.map Prod.fst).Nodup)
    (before' : Option ℓ) : ∃ heap', Linked.linkPrev heap (first l none) before' = some heap' ∧
      Seg heap' before' l after ∧ ∀ n ∉ l.map Prod.fst, heap' n = heap n := by
  cases l with
  | nil => exact ⟨heap, rfl, trivial, fun _ _ => rfl⟩
  | cons c l =>
    obtain ⟨hc, hl⟩ := h
    rw [List.map_cons, List.nodup_cons] at nd
    refine ⟨_, by rw [first_cons, Linked.linkPrev, Option.elim_some, modify, hc]; rfl,
      ⟨Function.update_self .., hl.update nd.1 _⟩, ?_⟩
    intro n hn
    refine Function.update_of_ne ?_ _ _
    rintro rfl
    simp at hn

/-- Taking the cell in the middle out of a whole list. -/
theorem unlink (h : Seg heap none (l ++ c :: m) none) (nd : ((l ++ c :: m).map Prod.fst).Nodup) :
    ∃ heap₁ heap₂, Linked.linkNext heap (last none l) (first m none) = some heap₁ ∧
      heap₁ c.1 = heap c.1 ∧
      Linked.linkPrev heap₁ (first m none) (last none l) = some heap₂ ∧
      Seg heap₂ none (l ++ m) none ∧ ∀ n ∉ (l ++ m).map Prod.fst, heap₂ n = heap n := by
  obtain ⟨hl, -, hm⟩ := seg_append.mp h
  rw [List.map_append, List.map_cons, List.nodup_middle, List.nodup_cons, List.mem_append,
    List.nodup_append] at nd
  obtain ⟨hc, ndl, ndm, hdisjoint⟩ := nd
  obtain ⟨heap₁, hnext, hl₁, hframe₁⟩ := hl.linkNext ndl (first m none)
  have hm₁ : Seg heap₁ (some c.1) m none :=
    hm.frame fun n hn => hframe₁ n fun hn' => hdisjoint n hn' n hn rfl
  obtain ⟨heap₂, hprev, hm₂, hframe₂⟩ := hm₁.linkPrev ndm (last none l)
  refine ⟨heap₁, heap₂, hnext, hframe₁ _ fun hn => hc (Or.inl hn), hprev, ?_, fun n hn => ?_⟩
  · refine seg_append.mpr ⟨hl₁.frame fun n hn => hframe₂ n fun hn' => ?_, hm₂⟩
    exact hdisjoint n hn n hn' rfl
  · rw [List.map_append, List.mem_append, not_or] at hn
    rw [hframe₂ n hn.2, hframe₁ n hn.1]

/-- A whole list is deleted, and nothing else is. -/
theorem dispose (h : Seg heap before l none) (nd : (l.map Prod.fst).Nodup) {rounds : Nat}
    (enough : l.length < rounds) :
    ∃ heap', Linked.dispose rounds (first l none) heap = some heap' ∧
      (∀ n ∈ l.map Prod.fst, heap' n = none) ∧ ∀ n ∉ l.map Prod.fst, heap' n = heap n := by
  obtain ⟨rounds, rfl⟩ := Nat.exists_eq_add_of_lt enough
  induction l generalizing heap before with
  | nil => exact ⟨heap, rfl, by simp, fun _ _ => rfl⟩
  | cons c l ih =>
    obtain ⟨hc, hl⟩ := h
    rw [List.map_cons, List.nodup_cons] at nd
    have hrest := hl.update nd.1 none
    obtain ⟨heap', hdispose, hgone, hframe⟩ := ih hrest nd.2 (by omega)
    have hrounds : (c :: l).length + rounds + 1 = l.length + rounds + 1 + 1 := by
      rw [List.length_cons]
      omega
    refine ⟨heap', ?_, ?_, ?_⟩
    · rw [hrounds, first_cons, Linked.dispose, hc]
      exact hdispose
    · intro n hn
      rw [List.map_cons, List.mem_cons] at hn
      obtain rfl | hn := hn
      · rw [hframe _ nd.1, Function.update_self]
      · exact hgone n hn
    · intro n hn
      rw [List.map_cons, List.mem_cons, not_or] at hn
      rw [hframe n hn.2, Function.update_of_ne hn.1]

end Seg

end Linked
