import Mathlib.Data.Nat.Digits.Lemmas

/-!
# Decimal numerals in bytes

The ASCII decimal numeral of a natural number and the value of a string of ASCII digits.
-/

namespace Decimal

def IsDigit (c : UInt8) : Prop := 48 ≤ c ∧ c ≤ 57

instance : DecidablePred IsDigit := fun c => inferInstanceAs (Decidable (48 ≤ c ∧ c ≤ 57))

/-- The value of a string of digits, read from the left. -/
def value (text : List UInt8) : Nat := text.foldl (fun v c => v * 10 + (c.toNat - 48)) 0

def digit (d : Nat) : UInt8 := UInt8.ofNat (48 + d)

/-- The numeral of `n`, without leading zeros. -/
def numeral (n : Nat) : List UInt8 :=
  if n = 0 then [digit 0] else ((Nat.digits 10 n).map digit).reverse

theorem digit_toNat {d : Nat} (h : d < 10) : (digit d).toNat = 48 + d := by
  rw [digit, UInt8.toNat_ofNat']
  omega

theorem isDigit_iff {c : UInt8} : IsDigit c ↔ 48 ≤ c.toNat ∧ c.toNat ≤ 57 := Iff.rfl

theorem isDigit_digit {d : Nat} (h : d < 10) : IsDigit (digit d) := by
  rw [isDigit_iff, digit_toNat h]
  omega

theorem isDigit_of_mem_numeral {n : Nat} {c : UInt8} (h : c ∈ numeral n) : IsDigit c := by
  unfold numeral at h
  split_ifs at h
  · rw [List.mem_singleton.mp h]
    exact isDigit_digit (by omega)
  · obtain ⟨d, hd, rfl⟩ := List.mem_map.mp (List.mem_reverse.mp h)
    exact isDigit_digit (Nat.digits_lt_base (by omega) hd)

theorem numeral_ne_nil (n : Nat) : numeral n ≠ [] := by
  unfold numeral
  split_ifs with h <;> simp [Nat.digits_eq_nil_iff_eq_zero, h]

theorem length_numeral_le {n k : Nat} (hk : 0 < k) (h : n < 10 ^ k) : (numeral n).length ≤ k := by
  unfold numeral
  split_ifs
  · exact hk
  · simpa using (Nat.digits_length_le_iff (by omega) n).mpr h

theorem lt_of_length_numeral {n k : Nat} (h : (numeral n).length ≤ k) : n < 10 ^ k := by
  unfold numeral at h
  split_ifs at h with hzero
  · rw [hzero]
    positivity
  · rw [List.length_reverse, List.length_map] at h
    exact (Nat.digits_length_le_iff (by omega) n).mp h

theorem value_numeral (n : Nat) : value (numeral n) = n := by
  unfold numeral
  split_ifs with h
  · subst h; rfl
  · have hfold : ∀ l : List Nat, (∀ d ∈ l, d < 10) →
        (l.map digit).foldr (fun c v => v * 10 + (c.toNat - 48)) 0 = Nat.ofDigits 10 l := by
      intro l hl
      induction l with
      | nil => rfl
      | cons d l ih =>
        rw [List.map_cons, List.foldr_cons, ih fun d hd => hl d (List.mem_cons_of_mem _ hd),
          digit_toNat (hl d List.mem_cons_self), Nat.ofDigits_cons]
        omega
    rw [value, List.foldl_reverse, hfold _ fun d hd => Nat.digits_lt_base (by omega) hd,
      Nat.ofDigits_digits]

end Decimal
