import Mathlib.Data.List.Basic

/-!
# Lines

What a loop over `getline` reads from a text: the pieces that end at a separator, without it, and
the rest after the last separator, if there is any.
-/

namespace Lines

variable {α : Type}

theorem mem_intercalate {c : α} {glue : List α} {pieces : List (List α)}
    (h : c ∈ List.intercalate glue pieces) : c ∈ glue ∨ ∃ piece ∈ pieces, c ∈ piece := by
  induction pieces with
  | nil => simp at h
  | cons piece pieces ih =>
    by_cases hnil : pieces = []
    · subst hnil
      exact Or.inr ⟨piece, List.mem_cons_self, by simpa using h⟩
    · rw [List.intercalate_cons_of_ne_nil hnil, List.mem_append, List.mem_append] at h
      grind

variable [DecidableEq α] (sep : α)

def getlines : List α → List (List α)
  | [] => []
  | c :: text =>
    if c = sep then [] :: getlines text
    else
      match getlines text with
      | [] => [[c]]
      | line :: lines => (c :: line) :: lines

variable {sep} {line : List α}

/-- A line that ends is read as it is. -/
theorem getlines_line (h : sep ∉ line) (text : List α) :
    getlines sep (line ++ sep :: text) = line :: getlines sep text := by
  induction line with
  | nil => simp [getlines]
  | cons c line ih =>
    rw [List.mem_cons, not_or] at h
    rw [List.cons_append, getlines, if_neg (Ne.symm h.1), ih h.2]

/-- So is a line that the text ends in. -/
theorem getlines_last (h : sep ∉ line) (hne : line ≠ []) : getlines sep line = [line] := by
  induction line with
  | nil => exact absurd rfl hne
  | cons c line ih =>
    rw [List.mem_cons, not_or] at h
    rw [getlines, if_neg (Ne.symm h.1)]
    by_cases hline : line = []
    · subst hline
      rfl
    · rw [ih h.2 hline]

/-- A text that ends a line is read before what follows it. -/
theorem getlines_append (text rest : List α) :
    getlines sep (text ++ sep :: rest) = getlines sep (text ++ [sep]) ++ getlines sep rest := by
  induction text with
  | nil => simp [getlines]
  | cons c text ih =>
    rw [List.cons_append, List.cons_append, getlines, getlines, ih]
    split_ifs
    · rfl
    · have hne : getlines sep (text ++ [sep]) ≠ [] := by
        cases text <;> simp only [List.nil_append, List.cons_append, getlines] <;> grind
      cases hlines : getlines sep (text ++ [sep]) with
      | nil => exact absurd hlines hne
      | cons line lines => rfl

/-- Pieces that were joined by the separator are read again, if the last one is not empty. -/
theorem getlines_intercalate {pieces : List (List α)} (h : ∀ piece ∈ pieces, sep ∉ piece)
    (hlast : pieces.getLast? ≠ some []) :
    getlines sep (List.intercalate [sep] pieces) = pieces := by
  induction pieces with
  | nil => rfl
  | cons piece pieces ih =>
    have hpiece := h piece List.mem_cons_self
    by_cases hnil : pieces = []
    · subst hnil
      rw [List.intercalate_singleton]
      exact getlines_last hpiece (by simpa using hlast)
    · rw [List.intercalate_cons_of_ne_nil hnil, List.append_assoc, List.singleton_append,
        getlines_line hpiece, ih (fun p hp => h p (List.mem_cons_of_mem _ hp))]
      rwa [List.getLast?_cons_of_ne_nil hnil] at hlast

end Lines
