import Mathlib.Data.List.Basic

/-!
# Reading a stream that comes in pieces

A reader looks at what has come and has not been read: it takes some of it from the front, or asks
for more. What a reader makes of the beginning of a stream does not depend on the pieces if more
data would not have changed its mind. The buffer is compacted when a piece arrives and not when
something is read.
-/

namespace Pull

variable {β γ : Type*}

/-- What is read, and from how many elements; or nothing yet. -/
abbrev Reader (β γ : Type*) := List β → Option (γ × Nat)

structure Reader.Stable (r : Reader β γ) : Prop where
  within : ∀ {data c n}, r data = some (c, n) → n ≤ data.length
  extend : ∀ {data c n}, r data = some (c, n) → ∀ more, r (data ++ more) = some (c, n)

structure Buffer (β : Type*) where
  buf : List β := []
  pos : Nat := 0
  deriving DecidableEq, Repr

namespace Buffer

def unread (b : Buffer β) : List β := b.buf.drop b.pos

def fill (b : Buffer β) (piece : List β) : Buffer β :=
  let b := if b.pos ≠ 0 then { buf := b.buf.drop b.pos, pos := 0 } else b
  { b with buf := b.buf ++ piece }

def skip (b : Buffer β) (n : Nat) : Buffer β := { b with pos := b.pos + n }

@[simp] theorem unread_fill (b : Buffer β) (piece : List β) :
    (b.fill piece).unread = b.unread ++ piece := by
  by_cases hpos : b.pos = 0 <;> simp [fill, unread, hpos]

@[simp] theorem unread_skip (b : Buffer β) (n : Nat) : (b.skip n).unread = b.unread.drop n := by
  simp [skip, unread, Nat.add_comm]

end Buffer

/-- Read, and wait for pieces as long as the reader asks for more. An empty piece is the end. -/
def pull [DecidableEq β] (r : Reader β γ) (b : Buffer β) :
    List (List β) → Option (γ × Buffer β × List (List β))
  | [] => (r b.unread).map fun (c, n) => (c, b.skip n, [])
  | piece :: pieces =>
    match r b.unread with
    | some (c, n) => some (c, b.skip n, piece :: pieces)
    | none => if piece = [] then none else pull r (b.fill piece) pieces

variable [DecidableEq β] {r : Reader β γ} {b : Buffer β} {pieces : List (List β)} {c : γ} {n : Nat}

/-- What is still to be read, in the buffer or on its way. -/
def ahead (b : Buffer β) (pieces : List (List β)) : List β := b.unread ++ pieces.flatten

/-- In whatever pieces the stream comes, it is read as if it were all there. -/
theorem pull_of_read (hr : r.Stable) (hpieces : ∀ piece ∈ pieces, piece ≠ [])
    (h : r (ahead b pieces) = some (c, n)) :
    ∃ b' pieces', pull r b pieces = some (c, b', pieces') ∧ pieces' <:+ pieces ∧
      ahead b' pieces' = (ahead b pieces).drop n := by
  induction pieces generalizing b with
  | nil =>
    simp only [ahead, List.flatten_nil, List.append_nil] at h
    refine ⟨b.skip n, [], ?_, List.suffix_rfl, ?_⟩
    · rw [pull, h]
      rfl
    · simp [ahead]
  | cons piece pieces ih =>
    have hrest : ∀ piece ∈ pieces, piece ≠ [] :=
      fun piece hmem => hpieces piece (List.mem_cons_of_mem _ hmem)
    cases hnow : r b.unread with
    | some found =>
      obtain ⟨c', n'⟩ := found
      have hextend := hr.extend hnow (piece :: pieces).flatten
      rw [ahead, hextend] at h
      cases h
      refine ⟨b.skip n, piece :: pieces, ?_, List.suffix_rfl, ?_⟩
      · rw [pull, hnow]
      · rw [ahead, ahead, Buffer.unread_skip, List.drop_append_of_le_length (hr.within hnow)]
    | none =>
      have hahead : ahead (b.fill piece) pieces = ahead b (piece :: pieces) := by
        simp [ahead]
      obtain ⟨b', pieces', hpull, hsuffix, hdrop⟩ := ih hrest (hahead.symm ▸ h)
      refine ⟨b', pieces', ?_, hsuffix.trans (List.suffix_cons _ _), ?_⟩
      · rw [pull, hnow]
        simpa [hpieces piece List.mem_cons_self] using hpull
      · rw [hdrop, hahead]

end Pull
