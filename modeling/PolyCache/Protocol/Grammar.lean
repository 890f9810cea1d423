import PolyCache.Protocol.Consume

/-!
# Frames

The grammar of a command frame, and what the parser does with one: a parser between two frames
takes a whole frame, whatever follows it, returns the command that its arguments spell, and stands
between two frames again.
-/

namespace PolyCache

namespace Protocol

/-! ## The grammar -/

/-- A line end, as the parser accepts it. -/
def IsEnding (ending : Bytes) : Prop := ending = [LF] ∨ ending = CRLF

/-- A header line: the tag, up to 18 digits that spell `n`, and a line end. -/
structure IsHeader (tag : UInt8) (n : Nat) (line : Bytes) : Prop where
  spelled : ∃ digits ending, line = tag :: digits ++ ending ∧ IsEnding ending ∧ digits ≠ [] ∧
    digits.length ≤ 18 ∧ (∀ c ∈ digits, Decimal.IsDigit c) ∧ Decimal.value digits = n

/-- A bulk that carries `payload`. -/
structure IsBulk (maxBulkLen : Nat) (payload bulk : Bytes) : Prop where
  parts : ∃ header ending, bulk = header ++ payload ++ ending ∧
    IsHeader 36 payload.length header ∧ IsEnding ending
  limit : payload.length ≤ maxBulkLen

/-- The bulks of a list of arguments, one after the other. -/
inductive Bulks (maxBulkLen : Nat) : List Bytes → Bytes → Prop where
  | nil : Bulks maxBulkLen [] []
  | cons {payload bulk : Bytes} {args : List Bytes} {bulks : Bytes}
      (head : IsBulk maxBulkLen payload bulk) (tail : Bulks maxBulkLen args bulks) :
      Bulks maxBulkLen (payload :: args) (bulk ++ bulks)

/-- A frame that spells `args`. -/
structure IsFrame (maxBulkLen : Nat) (args : List Bytes) (frame : Bytes) : Prop where
  parts : ∃ header bulks, frame = header ++ bulks ∧ IsHeader 42 args.length header ∧
    Bulks maxBulkLen args bulks
  limit : args.length ≤ Parser.kMaxArgs

/-- Frames one after the other. -/
inductive Frames (maxBulkLen : Nat) : List (List Bytes) → Bytes → Prop where
  | nil : Frames maxBulkLen [] []
  | cons {args : List Bytes} {frame : Bytes} {frames : List (List Bytes)} {stream : Bytes}
      (head : IsFrame maxBulkLen args frame) (tail : Frames maxBulkLen frames stream) :
      Frames maxBulkLen (args :: frames) (frame ++ stream)

/-! ## Header lines -/

/-- The line without the carriage return before its line feed. -/
def dropCr (line : Bytes) : Bytes := if line.getLast? = some CR then line.dropLast else line

theorem dropCr_concat (line : Bytes) : dropCr (line ++ [CR]) = line := by simp [dropCr]

theorem dropCr_of_not_mem {line : Bytes} (h : CR ∉ line) : dropCr line = line :=
  if_neg fun hlast => h (List.mem_of_getLast? hlast)

theorem readLine_line {body : Bytes} (out rest : Bytes) (hbody : LF ∉ body)
    (hlen : out.length + body.length ≤ 32) :
    readLine (body ++ LF :: rest) out = (.ok, rest, dropCr (out ++ body)) := by
  induction body generalizing out with
  | nil => simp [readLine, dropCr]
  | cons c body ih =>
    rw [List.mem_cons, not_or] at hbody
    rw [List.length_cons] at hlen
    have hshort : ¬ 32 < (out ++ [c]).length := by simp; omega
    rw [List.cons_append, readLine, if_neg (Ne.symm hbody.1), if_neg hshort,
      ih _ hbody.2 (by simp; omega), List.append_assoc, List.singleton_append]

theorem parseUint_of_digits {digits : Bytes} (hne : digits ≠ []) (hlen : digits.length ≤ 18)
    (hdigits : ∀ c ∈ digits, Decimal.IsDigit c) :
    parseUint digits = some (Decimal.value digits) := by
  have hshort : ¬ (digits = [] ∨ 18 < digits.length) := by simp [hne]; omega
  rw [parseUint, if_neg hshort, if_pos (by simpa using hdigits)]

/-- A header line is read as a whole, and its number is the one it spells. -/
theorem readLine_of_isHeader {tag : UInt8} {n : Nat} {line : Bytes} (hline : IsHeader tag n line)
    (htag : tag ≠ LF ∧ tag ≠ CR) (rest : Bytes) :
    ∃ header, readLine (line ++ rest) [] = (.ok, rest, header) ∧
      parseHeader tag header = some n := by
  obtain ⟨digits, ending, rfl, hending, hne, hlen, hdigits, rfl⟩ := hline.spelled
  have hlf : LF ∉ tag :: digits := fun hmem =>
    (List.mem_cons.mp hmem).elim htag.1.symm fun hmem => absurd (hdigits LF hmem) (by decide)
  have hcr : CR ∉ tag :: digits := fun hmem =>
    (List.mem_cons.mp hmem).elim htag.2.symm fun hmem => absurd (hdigits CR hmem) (by decide)
  refine ⟨tag :: digits, ?_, by simp [parseHeader, parseUint_of_digits hne hlen hdigits]⟩
  rcases hending with rfl | rfl
  · have hread := readLine_line [] rest hlf (by simp; omega)
    rw [List.nil_append, dropCr_of_not_mem hcr] at hread
    rwa [List.append_assoc]
  · have hbody : LF ∉ tag :: digits ++ [CR] := by
      rw [List.mem_append, not_or]
      exact ⟨hlf, by decide⟩
    have hread := readLine_line [] rest hbody (by simp; omega)
    rw [List.nil_append, dropCr_concat, List.append_assoc] at hread
    rwa [List.append_assoc]

namespace Parser

variable {alloc : Nat → Bool} {p : Parser}

/-! ## Taking a frame -/

/-- A parser between two frames. -/
structure Fresh (p : Parser) : Prop where
  state : p.state = .arrayLen
  header : p.header = []

theorem Fresh.resting (h : p.Fresh) : p.Resting := resting_of_arrayLen h.state

theorem consume_again {data data' : Bytes} {p' : Parser}
    (h : p.turn alloc data = .again p' data') : p.consume alloc data = p'.consume alloc data' := by
  rw [consume_eq, h]

theorem consume_of_ready (h : p.state = .ready) (data : Bytes) : p.consume alloc data =
    .ready (classify p.args) { p with args := [], state := .arrayLen } data := by
  rw [consume_eq, turn, h]

theorem turn_payload_whole {args : List Bytes} {payload : Bytes} (rest : Bytes) :
    turn alloc { p with
      args := args ++ [List.replicate payload.length 0]
      bulkLen := payload.length
      bulkRead := 0
      state := .payload } (payload ++ rest) =
    .again { p with
      args := args ++ [payload]
      bulkLen := payload.length
      bulkRead := payload.length
      state := .trailer } rest := by
  rw [turn, turnPayload_filled (by simp)]
  simp [fillBack, writeAt]

/-- A line end after a payload ends the argument. -/
theorem consume_ending {ending : Bytes} (hstate : p.state = .trailer) (hending : IsEnding ending)
    (rest : Bytes) : p.consume alloc (ending ++ rest) = p.nextArg.consume alloc rest := by
  rcases hending with rfl | rfl
  · refine consume_again ?_
    simp [turn, hstate, turnTrailer, show LF ≠ CR by decide, nextArg]
  · have hcr : p.turn alloc (CRLF ++ rest) =
        .again { p with state := .trailerLf } (LF :: rest) := by
      simp [turn, hstate, turnTrailer]
    rw [consume_again hcr]
    refine consume_again ?_
    simp [turn, turnTrailerLf, nextArg]

/-- A bulk up to its line end. -/
theorem consume_payload {payload header : Bytes} (hstate : p.state = .bulkLen)
    (hheader : p.header = []) (hline : IsHeader 36 payload.length header)
    (hlimit : payload.length ≤ p.maxBulkLen) (halloc : alloc payload.length = true)
    (rest : Bytes) :
    p.consume alloc (header ++ (payload ++ rest)) = consume alloc { p with
      args := p.args ++ [payload]
      bulkLen := payload.length
      bulkRead := payload.length
      state := .trailer } rest := by
  obtain ⟨line, hread, hparse⟩ := readLine_of_isHeader hline (by decide) (payload ++ rest)
  have hmax : ¬ p.maxBulkLen < payload.length := Nat.not_lt.mpr hlimit
  have hturn : p.turn alloc (header ++ (payload ++ rest)) =
      .again { p with
        args := p.args ++ [List.replicate payload.length 0]
        bulkLen := payload.length
        bulkRead := 0
        state := if payload.length = 0 then .trailer else .payload } (payload ++ rest) := by
    simp only [turn, hstate, turnBulkLen, hheader, hread, hparse, if_neg hmax, halloc, not_true,
      if_false]
  rw [consume_again hturn]
  by_cases hempty : payload = []
  · -- an empty argument has no payload state
    subst hempty
    rfl
  · have hpos : payload.length ≠ 0 := by simpa using hempty
    rw [if_neg hpos, consume_again (turn_payload_whole _)]

/-- A bulk is taken as a whole, into one more argument. -/
theorem consume_bulk {payload bulk : Bytes} (hstate : p.state = .bulkLen) (hheader : p.header = [])
    (hbulk : IsBulk p.maxBulkLen payload bulk) (halloc : alloc payload.length = true)
    (rest : Bytes) :
    p.consume alloc (bulk ++ rest) =
      (nextArg { p with
        args := p.args ++ [payload]
        bulkLen := payload.length
        bulkRead := payload.length }).consume alloc rest := by
  obtain ⟨header, ending, rfl, hline, hending⟩ := hbulk.parts
  rw [List.append_assoc, List.append_assoc,
    consume_payload hstate hheader hline hbulk.limit halloc]
  exact consume_ending rfl hending rest

/-- The bulks of the arguments that are still missing complete the command. -/
theorem consume_bulks {args : List Bytes} {bulks : Bytes} (hbulks : Bulks p.maxBulkLen args bulks)
    (hstate : p.state = .bulkLen) (hheader : p.header = [])
    (hindex : p.argIndex + args.length = p.argc) (hne : args ≠ [])
    (halloc : ∀ arg ∈ args, alloc arg.length = true) (rest : Bytes) :
    ∃ p', p.consume alloc (bulks ++ rest) = .ready (classify (p.args ++ args)) p' rest ∧
      p'.Fresh ∧ p'.maxBulkLen = p.maxBulkLen := by
  induction args generalizing p bulks with
  | nil => exact absurd rfl hne
  | cons payload args ih =>
    obtain _ | ⟨head, tail⟩ := hbulks
    rename_i bulk bulks
    rw [List.append_assoc,
      consume_bulk hstate hheader head (halloc payload List.mem_cons_self) (bulks ++ rest)]
    rw [List.length_cons] at hindex
    by_cases hlast : args = []
    · -- the last argument
      subst hlast
      obtain _ | _ := tail
      rw [List.length_nil] at hindex
      rw [consume_of_ready (if_neg (by dsimp only; omega))]
      exact ⟨_, rfl, ⟨rfl, hheader⟩, rfl⟩
    · have hpos : 0 < args.length := List.length_pos_iff.mpr hlast
      obtain ⟨p', hconsume, hfresh, hmax⟩ := ih (p := nextArg { p with
        args := p.args ++ [payload]
        bulkLen := payload.length
        bulkRead := payload.length }) tail (if_pos (by dsimp only; omega)) hheader
        (by simp only [nextArg]; omega) hlast
        fun arg harg => halloc arg (List.mem_cons_of_mem _ harg)
      refine ⟨p', ?_, hfresh, hmax⟩
      rw [hconsume, nextArg, List.append_assoc, List.singleton_append]

/-- After the header of an array. -/
theorem consume_array {count : Nat} {line : Bytes} (hp : p.Fresh) (hline : IsHeader 42 count line)
    (hlimit : count ≤ kMaxArgs) (rest : Bytes) :
    p.consume alloc (line ++ rest) = consume alloc { p with
      argc := count
      argIndex := 0
      args := []
      state := if count = 0 then .ready else .bulkLen } rest := by
  obtain ⟨header, hread, hparse⟩ := readLine_of_isHeader hline (by decide) rest
  refine consume_again ?_
  simp only [turn, hp.state, turnArrayLen, hp.header, hread, hparse,
    if_neg (Nat.not_lt.mpr hlimit)]

/-- A parser between two frames takes the next frame, whatever follows it. -/
theorem consume_frame {args : List Bytes} {frame : Bytes} (hp : p.Fresh)
    (hframe : IsFrame p.maxBulkLen args frame) (halloc : ∀ arg ∈ args, alloc arg.length = true)
    (rest : Bytes) :
    ∃ p', p.consume alloc (frame ++ rest) = .ready (classify args) p' rest ∧
      p'.Fresh ∧ p'.maxBulkLen = p.maxBulkLen := by
  obtain ⟨header, bulks, rfl, hline, hbulks⟩ := hframe.parts
  rw [List.append_assoc, consume_array hp hline hframe.limit]
  by_cases hempty : args = []
  · subst hempty
    obtain _ | _ := hbulks
    rw [consume_of_ready rfl]
    exact ⟨_, rfl, ⟨rfl, hp.header⟩, rfl⟩
  · have hpos : args.length ≠ 0 := by simpa using hempty
    rw [if_neg hpos]
    exact consume_bulks (p := { p with
      argc := args.length
      argIndex := 0
      args := []
      state := .bulkLen }) hbulks rfl hp.header (Nat.zero_add _) hempty halloc rest

/-- The loop takes frame after frame, then what follows them. -/
theorem feed_frames {frames : List (List Bytes)} {stream : Bytes} (hp : p.Fresh)
    (hframes : Frames p.maxBulkLen frames stream)
    (halloc : ∀ args ∈ frames, ∀ arg ∈ args, alloc arg.length = true) (rest : Bytes) :
    ∃ p' : Parser, p'.Fresh ∧ p'.maxBulkLen = p.maxBulkLen ∧ p.feed alloc (stream ++ rest) =
      { p'.feed alloc rest with
        commands := frames.map classify ++ (p'.feed alloc rest).commands } := by
  induction frames generalizing p stream with
  | nil =>
    obtain _ | _ := hframes
    exact ⟨p, hp, rfl, rfl⟩
  | cons args frames ih =>
    obtain _ | ⟨head, tail⟩ := hframes
    rename_i frame stream
    obtain ⟨q, hconsume, hq, hqmax⟩ := consume_frame hp head
      (halloc args List.mem_cons_self) (stream ++ rest)
    obtain ⟨p', hp', hmax, hfeed⟩ := ih hq (hqmax ▸ tail)
      fun args hargs => halloc args (List.mem_cons_of_mem _ hargs)
    refine ⟨p', hp', hmax.trans hqmax, ?_⟩
    have hne : frame ++ (stream ++ rest) ≠ [] := by
      intro hnil
      have hlt := consume_ready hp.resting hconsume
      rw [hnil] at hlt
      cases hlt
    rw [List.append_assoc, feed_eq hp.resting hne, hconsume, Consumed.feed, hfeed]
    rfl

end Parser

end Protocol

end PolyCache
