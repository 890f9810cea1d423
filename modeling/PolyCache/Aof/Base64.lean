import PolyCache.Basic
import PolyCache.Library.Decimal

/-!
# Base64

`base64_encode` and `base64_decode` of `src/aof.cpp`. The shifts and masks of the source are
divisions and remainders here.
-/

namespace PolyCache

namespace Base64

def kBase64Alphabet : Bytes :=
  ascii "ABCDEFGHIJKLMNOPQRSTUVWXYZabcdefghijklmnopqrstuvwxyz0123456789+/"

/-- `kBase64Alphabet[v & 0x3F]` -/
def letter (v : Nat) : UInt8 := kBase64Alphabet.getD (v % 64) 0

/-- `=` -/
abbrev pad : UInt8 := 61

def encode : Bytes → Bytes
  | a :: b :: c :: rest =>
    let v := a.toNat * 2 ^ 16 + b.toNat * 2 ^ 8 + c.toNat
    letter (v / 2 ^ 18) :: letter (v / 2 ^ 12) :: letter (v / 2 ^ 6) :: letter v :: encode rest
  | [a, b] =>
    let v := a.toNat * 2 ^ 16 + b.toNat * 2 ^ 8
    [letter (v / 2 ^ 18), letter (v / 2 ^ 12), letter (v / 2 ^ 6), pad]
  | [a] =>
    let v := a.toNat * 2 ^ 16
    [letter (v / 2 ^ 18), letter (v / 2 ^ 12), pad, pad]
  | [] => []

/-- The value of a letter, `-2` for the padding and `-1` for any other byte. -/
def value (c : UInt8) : Int :=
  if 65 ≤ c ∧ c ≤ 90 then c.toNat - 65
  else if 97 ≤ c ∧ c ≤ 122 then c.toNat - 97 + 26
  else if 48 ≤ c ∧ c ≤ 57 then c.toNat - 48 + 52
  else if c = 43 then 62
  else if c = 47 then 63
  else if c = 61 then -2
  else -1

/-- One round of the decoding loop, for the values of four letters. -/
def decodeGroup (last : Bool) (a b c d : Int) : Option Bytes :=
  if a < 0 ∨ b < 0 ∨ c = -1 ∨ d = -1 then none
  else if c = -2 ∧ (¬ last ∨ d ≠ -2) then none
  else if c ≠ -2 ∧ d = -2 ∧ ¬ last then none
  else
    let v := a.toNat * 2 ^ 18 + b.toNat * 2 ^ 12 + c.toNat * 2 ^ 6 + d.toNat
    some (UInt8.ofNat (v / 2 ^ 16) ::
      ((if 0 ≤ c then [UInt8.ofNat (v / 2 ^ 8)] else []) ++ if 0 ≤ d then [UInt8.ofNat v] else []))

/-- The decoded bytes; `none` where `base64_decode` answers `false`. -/
def decode : Bytes → Option Bytes
  | [] => some []
  | a :: b :: c :: d :: rest => do
    let group ← decodeGroup rest.isEmpty (value a) (value b) (value c) (value d)
    let output ← decode rest
    return group ++ output
  | _ => none

/-! ## The round trip -/

theorem value_letter_of_lt : ∀ v < 64, value (letter v) = v := by decide +kernel

theorem value_letter (v : Nat) : value (letter v) = ((v % 64 : Nat) : Int) := by
  rw [← value_letter_of_lt (v % 64) (Nat.mod_lt v (by decide)), letter, letter, Nat.mod_mod]

theorem value_pad : value pad = -2 := by decide

/-- A byte is found again in the sum it has been put into. -/
theorem ofNat_eq {n : Nat} {c : UInt8} (h : n % 256 = c.toNat) : UInt8.ofNat n = c := by
  rw [← UInt8.toNat_inj, UInt8.toNat_ofNat', ← h]

theorem decodeGroup_three (last : Bool) {v : Nat} (hv : v < 2 ^ 24) :
    decodeGroup last (value (letter (v / 2 ^ 18))) (value (letter (v / 2 ^ 12)))
      (value (letter (v / 2 ^ 6))) (value (letter v)) =
    some [UInt8.ofNat (v / 2 ^ 16), UInt8.ofNat (v / 2 ^ 8), UInt8.ofNat v] := by
  have hsum : v / 2 ^ 18 % 64 * 2 ^ 18 + v / 2 ^ 12 % 64 * 2 ^ 12 + v / 2 ^ 6 % 64 * 2 ^ 6 +
      v % 64 = v := by omega
  simp only [value_letter, decodeGroup]
  rw [if_neg (by omega), if_neg (by omega), if_neg (by omega)]
  simp only [Int.toNat_natCast, hsum]
  rw [if_pos (by omega), if_pos (by omega)]
  rfl

theorem decodeGroup_two {v : Nat} (hv : v < 2 ^ 24) (hlow : v % 2 ^ 6 = 0) :
    decodeGroup true (value (letter (v / 2 ^ 18))) (value (letter (v / 2 ^ 12)))
      (value (letter (v / 2 ^ 6))) (value pad) =
    some [UInt8.ofNat (v / 2 ^ 16), UInt8.ofNat (v / 2 ^ 8)] := by
  have hsum : v / 2 ^ 18 % 64 * 2 ^ 18 + v / 2 ^ 12 % 64 * 2 ^ 12 + v / 2 ^ 6 % 64 * 2 ^ 6 +
      Int.toNat (-2) = v := by
    have : Int.toNat (-2) = 0 := rfl
    omega
  simp only [value_letter, value_pad, decodeGroup]
  rw [if_neg (by omega), if_neg (by omega), if_neg (by simp)]
  simp only [Int.toNat_natCast, hsum]
  rw [if_pos (by omega), if_neg (by omega)]
  rfl

theorem decodeGroup_one {v : Nat} (hv : v < 2 ^ 24) (hlow : v % 2 ^ 12 = 0) :
    decodeGroup true (value (letter (v / 2 ^ 18))) (value (letter (v / 2 ^ 12)))
      (value pad) (value pad) = some [UInt8.ofNat (v / 2 ^ 16)] := by
  have hsum : v / 2 ^ 18 % 64 * 2 ^ 18 + v / 2 ^ 12 % 64 * 2 ^ 12 + Int.toNat (-2) * 2 ^ 6 +
      Int.toNat (-2) = v := by
    have : Int.toNat (-2) = 0 := rfl
    omega
  simp only [value_letter, value_pad, decodeGroup]
  rw [if_neg (by omega), if_neg (by simp), if_neg (by simp)]
  simp only [Int.toNat_natCast, hsum]
  rw [if_neg (by omega)]
  rfl

theorem decode_encode (input : Bytes) : decode (encode input) = some input := by
  fun_induction encode input with
  | case1 a b c rest v ih =>
    have ha := a.toNat_lt
    have hb := b.toNat_lt
    have hc := c.toNat_lt
    have hv : v < 2 ^ 24 := by omega
    rw [decode, decodeGroup_three _ hv, ih, ofNat_eq (c := a) (by omega),
      ofNat_eq (c := b) (by omega), ofNat_eq (c := c) (by omega)]
    rfl
  | case2 a b v =>
    have ha := a.toNat_lt
    have hb := b.toNat_lt
    have hv : v < 2 ^ 24 := by omega
    rw [decode, List.isEmpty_nil, decodeGroup_two hv (by omega), ofNat_eq (c := a) (by omega),
      ofNat_eq (c := b) (by omega)]
    rfl
  | case3 a v =>
    have ha := a.toNat_lt
    have hv : v < 2 ^ 24 := by omega
    rw [decode, List.isEmpty_nil, decodeGroup_one hv (by omega), ofNat_eq (c := a) (by omega)]
    rfl
  | case4 => rfl

end Base64

end PolyCache
