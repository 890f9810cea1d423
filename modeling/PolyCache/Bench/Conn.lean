import PolyCache.Admin.Segments
import PolyCache.Library.Pull

/-!
# The client of the benchmark

The class `Conn` of `blob_bench.py`, with which the benchmark talks to the server. Its replies come
in pieces as `recv` brings them; where the pieces end, `_fill` raises `EOFError`, as it does on an
empty one.
-/

namespace PolyCache

open Protocol Pull

namespace Bench

/-! ## Numbers -/

def isSpace (c : UInt8) : Bool := c = 32 ∨ 9 ≤ c ∧ c ≤ 13

def strip (text : Bytes) : Bytes :=
  ((text.dropWhile isSpace).reverse.dropWhile isSpace).reverse

/-- The digits of `int`. There may be an underscore between two of them: `digit` says that one has
just been read. -/
def readDigits (digit : Bool) (n : Nat) : Bytes → Option Nat
  | [] => if digit then some n else none
  | c :: text =>
    if Decimal.IsDigit c then readDigits true (n * 10 + (c.toNat - 48)) text
    else if c = 95 ∧ digit then readDigits false n text
    else none

/-- `int` of Python on bytes -/
def int (text : Bytes) : Option Int :=
  match strip text with
  | 43 :: text => (readDigits false 0 text).map fun n => n
  | 45 :: text => (readDigits false 0 text).map fun n => -n
  | text => (readDigits false 0 text).map fun n => n

theorem readDigits_digits {text : Bytes} (h : ∀ c ∈ text, Decimal.IsDigit c) (n : Nat) :
    readDigits true n text = some (text.foldl (fun v c => v * 10 + (c.toNat - 48)) n) := by
  induction text generalizing n with
  | nil => rfl
  | cons c text ih =>
    rw [readDigits, if_pos (h c List.mem_cons_self), List.foldl_cons]
    exact ih (fun c hc => h c (List.mem_cons_of_mem _ hc)) _

theorem not_isSpace {c : UInt8} (h : Decimal.IsDigit c) : isSpace c = false := by
  rw [Decimal.isDigit_iff] at h
  simp only [isSpace, decide_eq_false_iff_not, UInt8.le_iff_toNat_le, ← UInt8.toNat_inj]
  simp
  omega

theorem strip_of_digits {text : Bytes} (h : ∀ c ∈ text, Decimal.IsDigit c) : strip text = text := by
  have hkept : ∀ text : Bytes, (∀ c ∈ text, Decimal.IsDigit c) →
      text.dropWhile isSpace = text := by
    intro text htext
    cases text with
    | nil => rfl
    | cons c text => simp [not_isSpace (htext c List.mem_cons_self)]
  rw [strip, hkept text h, hkept text.reverse fun c hc => h c (List.mem_reverse.mp hc),
    List.reverse_reverse]

theorem int_numeral (n : Nat) : int (Decimal.numeral n) = some (n : Int) := by
  have hdigits : ∀ c ∈ Decimal.numeral n, Decimal.IsDigit c :=
    fun c hc => Decimal.isDigit_of_mem_numeral hc
  have hvalue := Decimal.value_numeral n
  rw [int, strip_of_digits hdigits]
  cases htext : Decimal.numeral n with
  | nil => exact absurd htext (Decimal.numeral_ne_nil n)
  | cons c text =>
    rw [htext] at hdigits hvalue
    have hc := hdigits c List.mem_cons_self
    have hread : readDigits false 0 (c :: text) = some n := by
      rw [readDigits, if_pos hc,
        readDigits_digits fun c hc => hdigits c (List.mem_cons_of_mem _ hc), ← hvalue]
      rfl
    split
    · rename_i heq
      cases heq
      exact absurd hc (by decide)
    · rename_i heq
      cases heq
      exact absurd hc (by decide)
    · rw [hread]
      rfl

/-! ## Replies -/

abbrev Conn := Buffer UInt8

/-- `_line` -/
def line : Reader UInt8 Bytes := fun data =>
  (AdminServer.find CRLF data).map fun i => (data.take i, i + 2)

/-- `_exact` -/
def exactly (n : Nat) : Reader UInt8 Bytes := fun data =>
  if data.length < n then none else some (data.take n, n)

/-- What `read_reply` returns, or the exception that it raises. -/
inductive Answer where
  | status (text : Bytes)
  /-- `RuntimeError` with the text of an error reply -/
  | error (text : Bytes)
  | number (n : Int)
  | nothing
  | blob (bytes : Bytes)
  | malformed
  | unexpected (line : Bytes)
  /-- `ValueError` -/
  | badNumber
  deriving DecidableEq, Repr

def readReply (c : Conn) (pieces : List Bytes) : Option (Answer × Conn × List Bytes) := do
  let (text, c, pieces) ← pull line c pieces
  match text with
  | 43 :: text => some (.status text, c, pieces)
  | 45 :: text => some (.error text, c, pieces)
  | 58 :: text => some ((int text).elim .badNumber .number, c, pieces)
  | 36 :: text =>
    match int text with
    | none => some (.badNumber, c, pieces)
    | some n =>
      if n < 0 then some (.nothing, c, pieces)
      else do
        let (data, c, pieces) ← pull (exactly (n.toNat + 2)) c pieces
        if data.drop n.toNat ≠ CRLF then some (.malformed, c, pieces)
        else some (.blob (data.take n.toNat), c, pieces)
  | text => some (.unexpected text, c, pieces)

/-- `read_reply`, as often as there are replies to come. -/
def readReplies : Nat → Conn → List Bytes → Option (List Answer × Conn × List Bytes)
  | 0, c, pieces => some ([], c, pieces)
  | n + 1, c, pieces => do
    let (answer, c, pieces) ← readReply c pieces
    let (answers, c, pieces) ← readReplies n c pieces
    some (answer :: answers, c, pieces)

/-! ## What a reply means -/

inductive Means : Bytes → Answer → Prop where
  | status {text : Bytes} (htext : Resp.OneLine text) : Means (43 :: text ++ CRLF) (.status text)
  | error {text : Bytes} (htext : Resp.OneLine text) : Means (45 :: text ++ CRLF) (.error text)
  | number {text : Bytes} (htext : Resp.OneLine text) :
      Means (58 :: text ++ CRLF) ((int text).elim .badNumber .number)
  | nothing : Means (36 :: ascii "-1" ++ CRLF) .nothing
  | blob (bytes : Bytes) :
      Means (36 :: Decimal.numeral bytes.length ++ CRLF ++ bytes ++ CRLF) (.blob bytes)

theorem exists_means {reply : Bytes} (h : Resp.IsReply reply) : ∃ a, Means reply a := by
  cases h with
  | line htag htext =>
    obtain rfl | rfl | rfl := htag
    · exact ⟨_, .status htext⟩
    · exact ⟨_, .error htext⟩
    · exact ⟨_, .number htext⟩
  | null => exact ⟨_, .nothing⟩
  | bulk bytes => exact ⟨_, .blob bytes⟩

theorem find_append {needle text : Bytes} {i : Nat} (h : AdminServer.find needle text = some i)
    (more : Bytes) : AdminServer.find needle (text ++ more) = some i := by
  induction text generalizing i with
  | nil =>
    rw [AdminServer.find] at h
    split_ifs at h with hneedle
    cases h
    subst hneedle
    cases more <;> simp [AdminServer.find]
  | cons c text ih =>
    rw [AdminServer.find] at h
    rw [List.cons_append, AdminServer.find]
    by_cases hpre : needle <+: c :: text
    · rw [if_pos hpre] at h
      have hmore : needle <+: c :: (text ++ more) :=
        hpre.trans (List.prefix_append (c :: text) more)
      rw [if_pos hmore]
      exact h
    · rw [if_neg hpre, Option.map_eq_some_iff] at h
      obtain ⟨i, hi, rfl⟩ := h
      -- the needle is in the text, so that it cannot reach beyond it from here
      have hinfix : needle <:+: text := AdminServer.find_isSome_iff.mp (by simp [hi])
      have hnot : ¬ needle <+: c :: (text ++ more) := by
        intro hmore
        apply hpre
        apply List.prefix_of_prefix_length_le hmore (List.prefix_append (c :: text) more)
        have hlength := hinfix.length_le
        rw [List.length_cons]
        omega
      rw [if_neg hnot, ih hi]
      rfl

theorem find_le {needle text : Bytes} {i : Nat} (h : AdminServer.find needle text = some i) :
    i + needle.length ≤ text.length := by
  induction text generalizing i with
  | nil =>
    rw [AdminServer.find] at h
    split_ifs at h with hneedle
    cases h
    simp [hneedle]
  | cons c text ih =>
    rw [AdminServer.find] at h
    split_ifs at h with hpre
    · cases h
      simpa using hpre.length_le
    · obtain ⟨i, hi, rfl⟩ := Option.map_eq_some_iff.mp h
      have hle := ih hi
      rw [List.length_cons]
      omega

/-- The end of a line is found. -/
theorem find_line {text : Bytes} (htext : CR ∉ text) (rest : Bytes) :
    AdminServer.find CRLF (text ++ CRLF ++ rest) = some text.length := by
  induction text with
  | nil => rfl
  | cons c text ih =>
    rw [List.mem_cons, not_or] at htext
    have hpre : ¬ CRLF <+: c :: (text ++ CRLF ++ rest) := by
      rintro ⟨more, heq⟩
      exact htext.1 (List.cons.inj heq).1
    rw [List.cons_append, List.cons_append, AdminServer.find, if_neg hpre, ih htext.2]
    rfl

theorem stable_line : line.Stable where
  within h := by
    obtain ⟨i, hi, heq⟩ := Option.map_eq_some_iff.mp h
    cases heq
    exact find_le hi
  extend h more := by
    obtain ⟨i, hi, heq⟩ := Option.map_eq_some_iff.mp h
    cases heq
    have hle := find_le hi
    simp only [line, find_append hi more, Option.map_some]
    rw [List.take_append_of_le_length (by omega)]

theorem stable_exactly (n : Nat) : (exactly n).Stable where
  within h := by
    unfold exactly at h
    split_ifs at h
    cases h
    omega
  extend {data _ _} h more := by
    unfold exactly at h ⊢
    split_ifs at h with hlength
    cases h
    have hmore : ¬ (data ++ more).length < n := by
      rw [List.length_append]
      omega
    rw [if_neg hmore, List.take_append_of_le_length (by omega)]

theorem line_read {text : Bytes} (htext : CR ∉ text) (rest : Bytes) :
    line (text ++ CRLF ++ rest) = some (text, text.length + 2) := by
  rw [line, find_line htext rest, Option.map_some, List.append_assoc, List.take_left]

variable {c : Conn} {pieces : List Bytes} {reply rest : Bytes} {a : Answer}

/-- A line of the stream is read, and nothing else is. -/
theorem pull_line (hpieces : ∀ piece ∈ pieces, piece ≠ []) {text : Bytes} (htext : CR ∉ text)
    (hahead : ahead c pieces = text ++ CRLF ++ rest) :
    ∃ c' pieces', pull line c pieces = some (text, c', pieces') ∧ pieces' <:+ pieces ∧
      ahead c' pieces' = rest := by
  have hread : line (ahead c pieces) = some (text, text.length + 2) := by
    rw [hahead]
    exact line_read htext rest
  obtain ⟨c', pieces', hpull, hsuffix, hdrop⟩ := pull_of_read stable_line hpieces hread
  refine ⟨c', pieces', hpull, hsuffix, ?_⟩
  rw [hdrop, hahead]
  simp [List.drop_append]

theorem pull_exactly (hpieces : ∀ piece ∈ pieces, piece ≠ []) {data : Bytes}
    (hahead : ahead c pieces = data ++ rest) :
    ∃ c' pieces', pull (exactly data.length) c pieces = some (data, c', pieces') ∧
      pieces' <:+ pieces ∧ ahead c' pieces' = rest := by
  have hread : exactly data.length (ahead c pieces) = some (data, data.length) := by
    rw [hahead]
    simp [exactly]
  obtain ⟨c', pieces', hpull, hsuffix, hdrop⟩ :=
    pull_of_read (stable_exactly data.length) hpieces hread
  refine ⟨c', pieces', hpull, hsuffix, ?_⟩
  rw [hdrop, hahead]
  simp

/-- In whatever pieces a reply comes, it is read as what it means, and what follows it is left. -/
theorem readReply_of_means (hpieces : ∀ piece ∈ pieces, piece ≠ []) (h : Means reply a)
    (hahead : ahead c pieces = reply ++ rest) :
    ∃ c' pieces', readReply c pieces = some (a, c', pieces') ∧ pieces' <:+ pieces ∧
      ahead c' pieces' = rest := by
  have hline : ∀ {tag : UInt8} {text rest : Bytes}, tag ≠ CR → CR ∉ text →
      ahead c pieces = tag :: text ++ CRLF ++ rest →
      ∃ c' pieces', pull line c pieces = some (tag :: text, c', pieces') ∧ pieces' <:+ pieces ∧
        ahead c' pieces' = rest := by
    intro tag text rest htag htext hahead
    apply pull_line hpieces _ hahead
    simpa [Ne.symm htag] using htext
  cases h with
  | status htext | error htext | number htext =>
    obtain ⟨c', pieces', hpull, hsuffix, hrest⟩ := hline (by decide) htext.1 hahead
    refine ⟨c', pieces', ?_, hsuffix, hrest⟩
    simp [readReply, hpull]
  | nothing =>
    obtain ⟨c', pieces', hpull, hsuffix, hrest⟩ := hline (by decide) (by decide) hahead
    refine ⟨c', pieces', ?_, hsuffix, hrest⟩
    have hint : int (ascii "-1") = some (-1) := by decide +kernel
    simp [readReply, hpull, hint]
  | blob bytes =>
    have htext : CR ∉ Decimal.numeral bytes.length := by
      intro hcr
      exact absurd (Decimal.isDigit_of_mem_numeral hcr) (by decide)
    have hsplit : ahead c pieces =
        36 :: Decimal.numeral bytes.length ++ CRLF ++ (bytes ++ CRLF ++ rest) := by
      rw [hahead]
      simp
    obtain ⟨c₁, pieces₁, hpull, hsuffix, hahead₁⟩ := hline (by decide) htext hsplit
    have hpieces₁ : ∀ piece ∈ pieces₁, piece ≠ [] := fun p hp => hpieces p (hsuffix.subset hp)
    obtain ⟨c', pieces', hpull', hsuffix', hrest⟩ := pull_exactly hpieces₁ hahead₁
    refine ⟨c', pieces', ?_, hsuffix'.trans hsuffix, hrest⟩
    have hlength : (bytes ++ CRLF).length = bytes.length + 2 := by simp
    rw [hlength] at hpull'
    simp [readReply, hpull, int_numeral, hpull']

theorem readReplies_of_means {replies : List Bytes} {answers : List Answer}
    (hpieces : ∀ piece ∈ pieces, piece ≠ []) (h : List.Forall₂ Means replies answers)
    (hahead : ahead c pieces = replies.flatten ++ rest) :
    ∃ c' pieces', readReplies replies.length c pieces = some (answers, c', pieces') ∧
      pieces' <:+ pieces ∧ ahead c' pieces' = rest := by
  induction h generalizing c pieces with
  | nil => exact ⟨c, pieces, rfl, List.suffix_rfl, hahead⟩
  | @cons reply a replies answers hmeans _ ih =>
    rw [List.flatten_cons, List.append_assoc] at hahead
    obtain ⟨c₁, pieces₁, hread, hsuffix, hahead₁⟩ := readReply_of_means hpieces hmeans hahead
    have hpieces₁ : ∀ piece ∈ pieces₁, piece ≠ [] := fun p hp => hpieces p (hsuffix.subset hp)
    obtain ⟨c', pieces', hreads, hsuffix', hrest⟩ := ih hpieces₁ hahead₁
    refine ⟨c', pieces', ?_, hsuffix'.trans hsuffix, hrest⟩
    simp [readReplies, hread, hreads]

theorem exists_answers {replies : List Bytes} (h : ∀ reply ∈ replies, Resp.IsReply reply) :
    ∃ answers, List.Forall₂ Means replies answers := by
  induction replies with
  | nil => exact ⟨[], .nil⟩
  | cons reply replies ih =>
    obtain ⟨a, ha⟩ := exists_means (h reply List.mem_cons_self)
    obtain ⟨answers, hanswers⟩ := ih fun r hr => h r (List.mem_cons_of_mem _ hr)
    exact ⟨a :: answers, .cons ha hanswers⟩

/-- No reply is the beginning of another. -/
theorem isReply_cancel {reply reply' rest rest' : Bytes} (h : Resp.IsReply reply)
    (h' : Resp.IsReply reply') (heq : reply ++ rest = reply' ++ rest') :
    reply = reply' ∧ rest = rest' := by
  obtain ⟨a, ha⟩ := exists_means h
  obtain ⟨a', ha'⟩ := exists_means h'
  have hpieces : ∀ piece ∈ [reply ++ rest], piece ≠ [] := by
    intro piece hpiece
    rw [List.mem_singleton.mp hpiece]
    exact List.append_ne_nil_of_left_ne_nil h.ne_nil rest
  have hahead : ahead ({} : Conn) [reply ++ rest] = reply ++ rest := by
    simp [ahead, Buffer.unread]
  obtain ⟨c, pieces, hread, -, hrest⟩ := readReply_of_means hpieces ha hahead
  obtain ⟨c', pieces', hread', -, hrest'⟩ := readReply_of_means hpieces ha' (hahead.trans heq)
  rw [hread, Option.some.injEq, Prod.mk.injEq, Prod.mk.injEq] at hread'
  obtain ⟨-, rfl, rfl⟩ := hread'
  obtain rfl : rest = rest' := hrest.symm.trans hrest'
  exact ⟨List.append_cancel_right heq, rfl⟩

theorem prefix_of_flatten {read replies : List Bytes} (hread : ∀ r ∈ read, Resp.IsReply r)
    (hreplies : ∀ r ∈ replies, Resp.IsReply r) (h : read.flatten <+: replies.flatten) :
    read <+: replies := by
  induction read generalizing replies with
  | nil => exact List.nil_prefix
  | cons reply read ih =>
    rw [List.forall_mem_cons] at hread
    obtain ⟨more, hmore⟩ := h
    rw [List.flatten_cons, List.append_assoc] at hmore
    cases replies with
    | nil => exact absurd (List.append_eq_nil_iff.mp hmore).1 hread.1.ne_nil
    | cons reply' replies =>
      rw [List.forall_mem_cons] at hreplies
      obtain ⟨rfl, hrest⟩ := isReply_cancel hread.1 hreplies.1 hmore
      exact (List.prefix_cons_inj reply).mpr (ih hread.2 hreplies.2 ⟨more, hrest⟩)

end Bench

end PolyCache
