import PolyCache.Aof.Log

/-!
# A compact JSON library

A library that meets what the log relies on: it dumps an object the way the real one does, without
blanks, and parses the objects that are logged. A dumped object has one opening brace, at its
front, and one closing brace, at its end.
-/

namespace PolyCache

open Lines

namespace Aof

namespace Compact

/-- `"` -/
abbrev quoteMark : UInt8 := 34
/-- `{` -/
abbrev openBrace : UInt8 := 123
/-- `}` -/
abbrev closeBrace : UInt8 := 125

/-! ## Numbers -/

def dumpInt (n : Int) : Bytes :=
  if n < 0 then 45 :: Decimal.numeral n.natAbs else Decimal.numeral n.natAbs

def readInt : Bytes → Int
  | [] => 0
  | c :: digits => if c = 45 then -Decimal.value digits else Decimal.value (c :: digits)

theorem readInt_dumpInt (n : Int) : readInt (dumpInt n) = n := by
  unfold dumpInt
  split_ifs with hneg
  · simp only [readInt, if_true, Decimal.value_numeral]
    omega
  · cases hdigits : Decimal.numeral n.natAbs with
    | nil => exact absurd hdigits (Decimal.numeral_ne_nil _)
    | cons c digits =>
      have hdigit : Decimal.IsDigit c :=
        Decimal.isDigit_of_mem_numeral (hdigits ▸ List.mem_cons_self)
      have hne : c ≠ 45 := by
        rintro rfl
        exact absurd hdigit (by decide)
      rw [readInt, if_neg hne, ← hdigits, Decimal.value_numeral]
      omega

/-! ## Texts -/

/-- A byte that stands between the braces of a logged object and is no quote. -/
def IsPlain (c : UInt8) : Prop :=
  c ≠ quoteMark ∧ c ≠ openBrace ∧ c ≠ closeBrace ∧ c ≠ LF

instance : DecidablePred IsPlain := fun c =>
  inferInstanceAs (Decidable (c ≠ quoteMark ∧ c ≠ openBrace ∧ c ≠ closeBrace ∧ c ≠ LF))

theorem isPlain_letter (v : Nat) : IsPlain (Base64.letter v) := by
  have hletters : ∀ v < 64, IsPlain (Base64.letter v) := by decide +kernel
  have hv := hletters (v % 64) (Nat.mod_lt v (by decide))
  rwa [Base64.letter, Nat.mod_mod, ← Base64.letter] at hv

theorem isPlain_encode (input : Bytes) : ∀ c ∈ Base64.encode input, IsPlain c := by
  have hpad : IsPlain Base64.pad := by decide
  fun_induction Base64.encode input <;> simp_all [isPlain_letter]

theorem isPlain_dumpInt (n : Int) : ∀ c ∈ dumpInt n, IsPlain c := by
  have hdigit : ∀ c ∈ Decimal.numeral n.natAbs, IsPlain c := by
    intro c hc
    have h := Decimal.isDigit_of_mem_numeral hc
    unfold Decimal.IsDigit at h
    unfold IsPlain
    grind
  unfold dumpInt
  split_ifs
  · intro c hc
    rcases List.mem_cons.mp hc with rfl | hc
    · decide
    · exact hdigit c hc
  · exact hdigit

/-! ## The library -/

def quote (text : Bytes) : Bytes := quoteMark :: text ++ [quoteMark]

def dumpValue : JsonValue → Bytes
  | .string text => quote text
  | .number n => dumpInt n
  | .other => ascii "null"

/-- A member, with the name and the colon. -/
def dumpMember (member : Bytes × JsonValue) : Bytes :=
  quote member.1 ++ 58 :: dumpValue member.2

def dump (j : JsonObject) : Bytes :=
  openBrace :: List.intercalate [44] (j.map dumpMember) ++ [closeBrace]

/-- The record that a dumped object logs, read off the pieces between the quotes. -/
def readPieces : List Bytes → Option Record
  | [_, _, _, _, _, _, _, key, _, _, number, _, _, value, _] => do
    let key ← Base64.decode key
    let value ← Base64.decode value
    return .set key value (readInt (number.drop 1).dropLast)
  | [_, _, _, _, _, _, _, key, _] => do
    let key ← Base64.decode key
    return .del key
  | _ => none

def readRecord (text : Bytes) : Option Record :=
  (readPieces (getlines quoteMark text)).filter fun r => dump r.json = text

def parse (text : Bytes) : Option Json := (readRecord text).map fun r => .object r.json

def lib : JsonLib := ⟨dump, parse⟩

/-! ## parse inverts dump -/

/-- What stands between the quotes of the dumped object. -/
def pieces : Record → List Bytes
  | .set key value ttl =>
    [[openBrace], kCmd, [58], kSet, [44], kKeyB64, [58], Base64.encode key, [44], kTtl,
      58 :: dumpInt ttl ++ [44], kValueB64, [58], Base64.encode value, [closeBrace]]
  | .del key =>
    [[openBrace], kCmd, [58], kDel, [44], kKeyB64, [58], Base64.encode key, [closeBrace]]

theorem dump_eq (r : Record) : dump r.json = List.intercalate [quoteMark] (pieces r) := by
  cases r <;> simp [dump, Record.json, dumpMember, quote, dumpValue, pieces]

theorem readPieces_pieces (r : Record) : readPieces (pieces r) = some r := by
  cases r with
  | set key value ttl =>
    simp [pieces, readPieces, Base64.decode_encode, readInt_dumpInt]
  | del key => simp [pieces, readPieces, Base64.decode_encode]

theorem quoteMark_not_mem_pieces (r : Record) : ∀ piece ∈ pieces r, quoteMark ∉ piece := by
  have hencode : ∀ input, quoteMark ∉ Base64.encode input :=
    fun input hmem => (isPlain_encode input _ hmem).1 rfl
  have hint : ∀ n, quoteMark ∉ dumpInt n := fun n hmem => (isPlain_dumpInt n _ hmem).1 rfl
  have hnames : ∀ name ∈ [kCmd, kSet, kDel, kKeyB64, kTtl, kValueB64], quoteMark ∉ name := by decide
  have hmarks :
      quoteMark ≠ openBrace ∧ quoteMark ≠ closeBrace ∧ quoteMark ≠ 58 ∧ quoteMark ≠ 44 := by
    decide
  cases r <;> simp_all [pieces]

theorem readRecord_dump (r : Record) : readRecord (dump r.json) = some r := by
  have hlast : (pieces r).getLast? ≠ some [] := by cases r <;> simp [pieces]
  rw [readRecord, dump_eq, getlines_intercalate (quoteMark_not_mem_pieces r) hlast,
    readPieces_pieces, ← dump_eq]
  simp

theorem dump_of_parse {text : Bytes} {j : Json} (h : parse text = some j) :
    ∃ r : Record, dump r.json = text := by
  obtain ⟨r, hr, -⟩ := Option.map_eq_some_iff.mp h
  exact ⟨r, by simpa using (Option.filter_eq_some_iff.mp hr).2⟩

/-! ## Braces -/

/-- A byte between the braces. -/
def IsInner (c : UInt8) : Prop := c ≠ openBrace ∧ c ≠ closeBrace ∧ c ≠ LF

instance : DecidablePred IsInner := fun c =>
  inferInstanceAs (Decidable (c ≠ openBrace ∧ c ≠ closeBrace ∧ c ≠ LF))

/-- What stands between the braces of the dumped object. -/
def inner (r : Record) : Bytes := List.intercalate [44] (r.json.map dumpMember)

theorem isInner_dumpMember {name : Bytes} {value : JsonValue} (hname : ∀ c ∈ name, IsInner c)
    (hvalue : ∀ c ∈ dumpValue value, IsInner c) : ∀ c ∈ dumpMember (name, value), IsInner c := by
  intro c hc
  have hmarks : IsInner quoteMark ∧ IsInner 58 := by decide
  simp only [dumpMember, quote, List.mem_append, List.mem_cons, List.not_mem_nil] at hc
  grind

theorem isInner_quote {text : Bytes} (h : ∀ c ∈ text, IsInner c) :
    ∀ c ∈ dumpValue (.string text), IsInner c := by
  intro c hc
  have hmark : IsInner quoteMark := by decide
  simp only [dumpValue, quote, List.mem_append, List.mem_cons, List.not_mem_nil] at hc
  grind

theorem isInner_encode (input : Bytes) : ∀ c ∈ Base64.encode input, IsInner c :=
  fun c hc => (isPlain_encode input c hc).2

theorem isInner_inner (r : Record) : ∀ c ∈ inner r, IsInner c := by
  have hnames : ∀ name ∈ [kCmd, kKeyB64, kTtl, kValueB64, kSet, kDel], ∀ c ∈ name, IsInner c := by
    decide +kernel
  have hmember : ∀ member ∈ r.json, ∀ c ∈ dumpMember member, IsInner c := by
    cases r with
    | set key value ttl =>
      simp only [Record.json, List.forall_mem_cons] at hnames ⊢
      exact ⟨isInner_dumpMember hnames.1 (isInner_quote hnames.2.2.2.2.1),
        isInner_dumpMember hnames.2.1 (isInner_quote (isInner_encode key)),
        isInner_dumpMember hnames.2.2.1 fun c hc => (isPlain_dumpInt ttl c hc).2,
        isInner_dumpMember hnames.2.2.2.1 (isInner_quote (isInner_encode value)),
        List.forall_mem_nil _⟩
    | del key =>
      simp only [Record.json, List.forall_mem_cons] at hnames ⊢
      exact ⟨isInner_dumpMember hnames.1 (isInner_quote hnames.2.2.2.2.2.1),
        isInner_dumpMember hnames.2.1 (isInner_quote (isInner_encode key)), List.forall_mem_nil _⟩
  intro c hc
  rcases mem_intercalate hc with hc | ⟨text, htext, hc⟩
  · rw [List.mem_singleton.mp hc]
    decide
  · obtain ⟨member, hmem, rfl⟩ := List.mem_map.mp htext
    exact hmember member hmem c hc

theorem lawful : lib.Lawful where
  parse_dump r _ := by simp [lib, parse, readRecord_dump]
  single_line r _ := by
    intro hmem
    change LF ∈ openBrace :: inner r ++ [closeBrace] at hmem
    have hmarks : LF ≠ openBrace ∧ LF ≠ closeBrace := by decide
    have hinner : LF ∈ inner r := by simpa [hmarks] using hmem
    exact (isInner_inner r LF hinner).2.2 rfl
  parse_nil := rfl

end Compact

end Aof

end PolyCache
