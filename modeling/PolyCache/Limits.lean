import PolyCache.Main
import PolyCache.Protocol.Accept
import PolyCache.Protocol.RoundTrip
import PolyCache.Storage.Effects

/-!
# Limits that fit together

Three limits come from the two numbers of megabytes on the command line: that of the store, that of
a value and that of a parser's argument. They fit together as long as no product wraps and no value
that the store takes has a length of more than eighteen digits, which are all that a header holds.
-/

namespace PolyCache

open Protocol Server

namespace Main

/-- A parser with this limit takes the frame of these arguments. -/
def Takes (maxBulkLen : Nat) (args : List Bytes) : Prop :=
  ∃ p, (Parser.init maxBulkLen).consume (fun _ => true) (Parser.encode args) =
    .ready (classify args) p []

/-- A `SET` of a key and a value that the store takes, its other arguments being small. -/
structure Storable (s : Storage) (verb key : Bytes) (value : Str) (options : List Bytes) :
    Prop where
  verb : (classify (verb :: key :: value.bytes :: options)).type = .set
  fits : s.canStore key value = true
  count : options.length + 3 ≤ Parser.kMaxArgs
  options : ∀ text ∈ options, text.length ≤ kParseOvershoot

/-- The limits are those of the command line, the limit of the parsers does not wrap, and a parser
takes whatever the store takes. -/
structure Consistent (o : Options) : Prop where
  memory : o.memoryBytes.toNat = o.memoryMb.toNat * 2 ^ 20
  maxValue : o.maxValueBytes.toNat = o.maxValueMb.toNat * 2 ^ 20
  overshoot : min o.maxValueBytes.toNat o.memoryBytes.toNat + kParseOvershoot < 2 ^ 64
  takes : ∀ (buckets : Nat) (dump : Storage → Bytes) (verb key : Bytes) (value : Str)
    (options : List Bytes), Storable (o.storage buckets) verb key value options →
    Takes (parseLimit (o.config dump) (o.storage buckets)) (verb :: key :: value.bytes :: options)

/-- The most megabytes whose bytes have eighteen digits. -/
def kMostMb : Nat := 953674316406

/-! ## Words -/

theorem toNat_bytes (mb : UInt64) :
    (mb * 1024 * 1024).toNat = mb.toNat * 2 ^ 20 % 2 ^ 64 := by
  simp only [UInt64.toNat_mul]
  show mb.toNat * 1024 % 2 ^ 64 * 1024 % 2 ^ 64 = mb.toNat * 2 ^ 20 % 2 ^ 64
  omega

theorem toNat_bytes_iff (mb : UInt64) :
    (mb * 1024 * 1024).toNat = mb.toNat * 2 ^ 20 ↔ mb.toNat < 2 ^ 44 := by
  rw [toNat_bytes]
  omega

/-! ## What the parsers take -/

theorem length_of_set {verb : Bytes} {args : List Bytes}
    (h : (classify (verb :: args)).type = .set) : verb.length = 3 := by
  have htype := Parser.isTypeOf_lookup verb
  have hset : (classify (verb :: args)).type =
    (verbs.lookup (verb.map toUpper)).getD .unknown := rfl
  rw [← hset, h] at htype
  exact ((htype.1 (ascii "SET", .set) (by decide)).mp rfl).length_eq

theorem takes_of_lengths {maxBulkLen : Nat} {args : List Bytes}
    (hcount : args.length ≤ Parser.kMaxArgs)
    (h : ∀ arg ∈ args, arg.length ≤ maxBulkLen ∧ arg.length < 10 ^ 18) : Takes maxBulkLen args := by
  obtain ⟨p, hconsume, -⟩ : ∃ p, (Parser.init maxBulkLen).consume (fun _ => true)
      (Parser.encode args ++ []) = .ready (classify args) p [] ∧ p.Fresh ∧
        p.maxBulkLen = maxBulkLen :=
    Parser.consume_frame (Parser.fresh_init maxBulkLen) (Parser.isFrame_encode hcount h)
      (fun _ _ => rfl) []
  rw [List.append_nil] at hconsume
  exact ⟨p, hconsume⟩

/-- A header holds no number of more than eighteen digits. -/
theorem badHeader_of_long {n : Nat} (hlong : 10 ^ 18 ≤ n) (hshort : n < 10 ^ 30)
    (admissible : Nat → Prop) (more : Bytes) :
    BadHeader 36 admissible (Parser.encodeHeader 36 n ++ more) := by
  have hdigit : ∀ c ∈ Decimal.numeral n, c ≠ LF ∧ c ≠ CR := by
    intro c hc
    have hrange := Decimal.isDigit_iff.mp (Decimal.isDigit_of_mem_numeral hc)
    constructor <;> rintro rfl <;> exact absurd hrange (by decide)
  have hlength : 18 < (Decimal.numeral n).length := by
    by_contra hle
    have hlt := Decimal.lt_of_length_numeral (Nat.not_lt.mp hle)
    omega
  have hline : Parser.encodeHeader 36 n ++ more =
      (36 :: Decimal.numeral n ++ [CR]) ++ LF :: more := by
    simp [Parser.encodeHeader]
  rw [hline]
  refine .line ?_ ?_ ?_
  · simp only [List.cons_append, List.mem_cons, List.mem_append, List.not_mem_nil, or_false, not_or]
    exact ⟨by decide, fun hmem => (hdigit LF hmem).1 rfl, by decide⟩
  · have hle := Decimal.length_numeral_le (k := 30) (by decide) hshort
    simp only [List.cons_append, List.length_cons, List.length_append, List.length_nil]
    omega
  · rintro m ⟨digits, ending, heq, hending, -, hdigits, -⟩
    have hlengths := congrArg List.length heq
    simp only [List.cons_append, List.length_cons, List.length_append, List.length_nil] at hlengths
    obtain rfl | rfl := hending
    · simp only [List.length_cons, List.length_nil] at hlengths
      omega
    · simp only [List.length_cons, List.length_nil] at hlengths
      omega

/-- `SET`, the empty key and a value of that many bytes. -/
theorem not_takes_of_long {maxBulkLen n : Nat} (hlong : 10 ^ 18 ≤ n) (hshort : n < 10 ^ 30)
    (hverb : 3 ≤ maxBulkLen) :
    ¬ Takes maxBulkLen [ascii "SET", [], List.replicate n 0] := by
  rintro ⟨p, hconsume⟩
  have hheader := badHeader_of_long hlong hshort (Granted (fun _ => true) maxBulkLen)
    (List.replicate n 0 ++ CRLF)
  have hbulk : ∀ payload : Bytes, payload.length ≤ maxBulkLen → payload.length < 10 ^ 18 →
      IsBulk maxBulkLen payload (Parser.encodeBulk payload) := fun payload hmax hdigits =>
    ⟨⟨_, CRLF, rfl, Parser.isHeader_encodeHeader 36 hdigits, Or.inr rfl⟩, hmax⟩
  have hset := hbulk (ascii "SET") hverb (by decide)
  have hkey := hbulk [] (Nat.zero_le _) (by decide)
  have hbad : BadFrame (fun _ => true) maxBulkLen
      (Parser.encode [ascii "SET", [], List.replicate n 0]) := by
    have hvalue : BadBulks (fun _ => true) maxBulkLen 1
        (Parser.encodeHeader 36 n ++ (List.replicate n 0 ++ CRLF)) := .here (.header hheader)
    have hbulks := BadBulks.later hset rfl (.later hkey rfl hvalue)
    have hframe := BadFrame.bulks (Parser.isHeader_encodeHeader 42 (n := 3) (by decide)) (by decide)
      hbulks
    simpa [Parser.encode, Parser.encodeBulk] using hframe
  obtain ⟨q, rest, herror⟩ := Parser.consume_badFrame (Parser.fresh_init maxBulkLen) hbad
  rw [herror] at hconsume
  exact nomatch hconsume

variable {prog : Bytes} {args : List Bytes} {o : Options}

/-- While the products do not wrap, the limits fit together up to the eighteen digits. -/
theorem consistent_of_le (hmemory : o.memoryMb.toNat < 2 ^ 44)
    (hvalue : o.maxValueMb.toNat < 2 ^ 44)
    (hmost : min o.memoryMb.toNat o.maxValueMb.toNat ≤ kMostMb) : Consistent o := by
  have hmemory' : o.memoryBytes.toNat = o.memoryMb.toNat * 2 ^ 20 :=
    (toNat_bytes_iff o.memoryMb).mpr hmemory
  have hvalue' : o.maxValueBytes.toNat = o.maxValueMb.toNat * 2 ^ 20 :=
    (toNat_bytes_iff o.maxValueMb).mpr hvalue
  have hmin : min o.maxValueBytes.toNat o.memoryBytes.toNat < 10 ^ 18 := by
    rw [kMostMb] at hmost
    omega
  have hwrap : min o.maxValueBytes.toNat o.memoryBytes.toNat + kParseOvershoot < 2 ^ 64 := by
    rw [kParseOvershoot]
    omega
  refine ⟨hmemory', hvalue', hwrap, fun buckets dump verb key value options h => ?_⟩
  have hlimit : parseLimit (o.config dump) (o.storage buckets) =
      min o.maxValueBytes.toNat o.memoryBytes.toNat + kParseOvershoot := Nat.mod_eq_of_lt hwrap
  obtain ⟨hkey, hsize, hfits⟩ := Storage.canStore_iff.mp h.fits
  have hbytes : value.bytes.length ≤ min o.maxValueBytes.toNat o.memoryBytes.toNat := by
    have hcapacity := value.size_le
    simp only [Storage.accounted, Str.size, Options.storage, Storage.init] at hsize hfits
    omega
  rw [hlimit]
  refine takes_of_lengths h.count fun arg harg => ?_
  simp only [List.mem_cons] at harg
  obtain rfl | rfl | rfl | harg := harg
  · rw [length_of_set h.verb, kParseOvershoot]
    omega
  · rw [Storage.kMaxKeySize] at hkey
    rw [kParseOvershoot]
    omega
  · omega
  · have hoption := h.options arg harg
    rw [kParseOvershoot] at hoption ⊢
    omega

/-- Beyond them a value of `10 ^ 18` bytes can be stored, and no parser takes it. -/
theorem not_consistent_of_lt (hmost : kMostMb < min o.memoryMb.toNat o.maxValueMb.toNat) :
    ¬ Consistent o := by
  intro h
  have hmemory := h.memory
  have hvalue := h.maxValue
  have hlimit : parseLimit (o.config fun _ => []) (o.storage 1) =
      min o.maxValueBytes.toNat o.memoryBytes.toNat + kParseOvershoot :=
    Nat.mod_eq_of_lt h.overshoot
  rw [kMostMb] at hmost
  obtain ⟨value, hbytes, hcapacity⟩ : ∃ value : Str,
      value.bytes = List.replicate (10 ^ 18) 0 ∧ value.capacity = 10 ^ 18 :=
    ⟨⟨List.replicate (10 ^ 18) 0, 10 ^ 18, List.length_replicate.le⟩, rfl, rfl⟩
  have hlength : value.bytes.length = 10 ^ 18 := by rw [hbytes, List.length_replicate]
  have hfits : (o.storage 1).canStore [] value = true := by
    rw [Storage.canStore_iff]
    simp only [Storage.accounted, Storage.kEntryOverhead, Str.size, Options.storage, Storage.init,
      hlength, hcapacity, List.length_nil]
    omega
  have htakes := h.takes 1 (fun _ => []) (ascii "SET") [] value []
    ⟨rfl, hfits, by decide, by simp⟩
  rw [hbytes] at htakes
  refine not_takes_of_long le_rfl (by decide) ?_ htakes
  rw [hlimit]
  exact le_trans (by decide) (Nat.le_add_left _ _)

/-- `main` starts no server with a limit of zero megabytes. -/
theorem nonzero_of_parseOptions {o' : Options} (h : parseOptions prog args o = .run o') :
    o'.memoryMb ≠ 0 ∧ o'.maxValueMb ≠ 0 := by
  fun_induction parseOptions prog args o with
  | case1 o =>
    rw [checkOptions] at h
    split_ifs at h with hzero
    cases h
    exact not_or.mp hzero
  | case2 | case3 | case7 => exact nomatch h
  | case4 => simp_all
  | case5 => simp_all
  | case6 => simp_all

/-- For a command line that `main` accepts, the limits fit together if and only if neither number
of megabytes is as large as `2 ^ 44` and the smaller one is at most the most that has eighteen
digits in bytes. -/
theorem limits_consistent_iff (h : start prog args = .run o) :
    o.memoryMb ≠ 0 ∧ o.maxValueMb ≠ 0 ∧ (Consistent o ↔
      o.memoryMb.toNat < 2 ^ 44 ∧ o.maxValueMb.toNat < 2 ^ 44 ∧
        min o.memoryMb.toNat o.maxValueMb.toNat ≤ kMostMb) := by
  obtain ⟨hmemory, hvalue⟩ := nonzero_of_parseOptions h
  refine ⟨hmemory, hvalue, fun hconsistent => ?_, ?_⟩
  · refine ⟨(toNat_bytes_iff _).mp hconsistent.memory, (toNat_bytes_iff _).mp hconsistent.maxValue,
      ?_⟩
    by_contra hmost
    exact not_consistent_of_lt (Nat.not_le.mp hmost) hconsistent
  · rintro ⟨hmemory, hvalue, hmost⟩
    exact consistent_of_le hmemory hvalue hmost

theorem start_small : start (ascii "polycache") [ascii "--memory-limit", ascii "2048",
    ascii "--max-value-size", ascii "512"] = .run { memoryMb := 2048 } := by decide

/-- Two gigabytes for the store, and half of one for a value. -/
theorem limits_consistent_small : Consistent { memoryMb := 2048 } :=
  (limits_consistent_iff start_small).2.2.mpr (by decide)

/-- `--memory-limit -1` is taken for `2 ^ 64 - 1` megabytes, and the store is given one less than
`2 ^ 44` of them. -/
theorem negative_limit_accepted : ¬ ∀ (prog : Bytes) (args : List Bytes) (o : Options),
    start prog args = .run o → Consistent o := by
  intro hall
  have hconsistent := hall (ascii "polycache") [ascii "--memory-limit", ascii "-1"]
    { memoryMb := 18446744073709551615 } (by decide)
  exact absurd hconsistent.memory (by decide)

end Main

end PolyCache
