import PolyCache.Library.Decimal

/-!
# Replies

The reply grammar of RESP2, as far as a server without arrays speaks it: a status, error or
integer line, the null bulk, and a bulk with its length.
-/

namespace Resp

abbrev CR : UInt8 := 13
abbrev LF : UInt8 := 10

/-- A text that fits on a line. -/
def OneLine (text : List UInt8) : Prop := CR ∉ text ∧ LF ∉ text

instance : DecidablePred OneLine := fun text =>
  inferInstanceAs (Decidable (CR ∉ text ∧ LF ∉ text))

/-- The first byte of a line: `+`, `-` or `:`. -/
def IsTag (tag : UInt8) : Prop := tag = 43 ∨ tag = 45 ∨ tag = 58

instance : DecidablePred IsTag := fun tag =>
  inferInstanceAs (Decidable (tag = 43 ∨ tag = 45 ∨ tag = 58))

/-- The bytes are one complete reply and nothing else. -/
inductive IsReply : List UInt8 → Prop where
  | line {tag : UInt8} {text : List UInt8} (htag : IsTag tag) (htext : OneLine text) :
      IsReply (tag :: text ++ [CR, LF])
  | null : IsReply [36, 45, 49, CR, LF]
  | bulk (payload : List UInt8) :
      IsReply (36 :: Decimal.numeral payload.length ++ [CR, LF] ++ payload ++ [CR, LF])

theorem IsReply.ne_nil {reply : List UInt8} (h : IsReply reply) : reply ≠ [] := by
  cases h <;> simp

/-- After a line's tag, the text decides. -/
theorem isReply_line_iff {tag : UInt8} (htag : IsTag tag) (text : List UInt8) :
    IsReply (tag :: text ++ [CR, LF]) ↔ OneLine text := by
  refine ⟨fun h => ?_, .line htag⟩
  generalize hreply : tag :: text ++ [CR, LF] = reply at h
  cases h with
  | line _ htext =>
    obtain ⟨-, rfl⟩ := List.cons.inj (List.append_cancel_right hreply)
    exact htext
  | null | bulk =>
    -- these begin with a dollar sign
    rw [List.cons_append] at hreply
    rw [(List.cons.inj hreply).1] at htag
    exact absurd htag (by decide)

end Resp
