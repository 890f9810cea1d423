import PolyCache.Protocol.RoundTrip

/-!
# What the parser accepts

What follows a frame starts with another frame, or breaks the grammar at a definite place, or is
the beginning of a frame. Accordingly the parser returns a command, fails or asks for more.
-/

namespace PolyCache

namespace Protocol

/-! ## Frames are told apart -/

variable {tag : UInt8} {n n' maxBulkLen : Nat} {line line' rest rest' : Bytes}

theorem IsHeader.unique (h : IsHeader tag n line) (h' : IsHeader tag n' line')
    (htag : tag ≠ LF ∧ tag ≠ CR) (heq : line ++ rest = line' ++ rest') :
    n = n' ∧ line = line' ∧ rest = rest' := by
  obtain ⟨header, hread, hparse⟩ := readLine_of_isHeader h htag rest
  obtain ⟨header', hread', hparse'⟩ := readLine_of_isHeader h' htag rest'
  rw [heq, hread'] at hread
  cases hread
  rw [hparse'] at hparse
  exact ⟨(Option.some.inj hparse).symm, List.append_cancel_right heq, rfl⟩

theorem IsEnding.unique {ending ending' : Bytes} (h : IsEnding ending) (h' : IsEnding ending')
    (heq : ending ++ rest = ending' ++ rest') : rest = rest' := by
  rcases h with rfl | rfl <;> rcases h' with rfl | rfl <;> simp_all [CRLF, LF, CR]

theorem IsBulk.unique {payload payload' bulk bulk' : Bytes} (h : IsBulk maxBulkLen payload bulk)
    (h' : IsBulk maxBulkLen payload' bulk') (heq : bulk ++ rest = bulk' ++ rest') :
    payload = payload' ∧ rest = rest' := by
  obtain ⟨header, ending, rfl, hline, hending⟩ := h.parts
  obtain ⟨header', ending', rfl, hline', hending'⟩ := h'.parts
  simp only [List.append_assoc] at heq
  obtain ⟨hlength, -, hrest⟩ := hline.unique hline' (by decide) heq
  obtain ⟨hpayload, hrest⟩ := List.append_inj hrest hlength
  exact ⟨hpayload, hending.unique hending' hrest⟩

theorem Bulks.unique {args args' : List Bytes} {bulks bulks' : Bytes}
    (h : Bulks maxBulkLen args bulks) (h' : Bulks maxBulkLen args' bulks')
    (hlength : args.length = args'.length) (heq : bulks ++ rest = bulks' ++ rest') :
    args = args' ∧ rest = rest' := by
  induction h generalizing args' bulks' with
  | nil =>
    obtain rfl := List.length_eq_zero_iff.mp hlength.symm
    cases h'
    exact ⟨rfl, heq⟩
  | cons head tail ih =>
    cases h' with
    | nil => cases hlength
    | cons head' tail' =>
      simp only [List.append_assoc] at heq
      obtain ⟨rfl, hrest⟩ := head.unique head' heq
      obtain ⟨rfl, hrest⟩ := ih tail' (Nat.succ.inj hlength) hrest
      exact ⟨rfl, hrest⟩

/-- Bytes start with at most one frame. -/
theorem IsFrame.unique {args args' : List Bytes} {frame frame' : Bytes}
    (h : IsFrame maxBulkLen args frame) (h' : IsFrame maxBulkLen args' frame')
    (heq : frame ++ rest = frame' ++ rest') : args = args' ∧ rest = rest' := by
  obtain ⟨header, bulks, rfl, hline, hbulks⟩ := h.parts
  obtain ⟨header', bulks', rfl, hline', hbulks'⟩ := h'.parts
  simp only [List.append_assoc] at heq
  obtain ⟨hlength, -, hrest⟩ := hline.unique hline' (by decide) heq
  exact hbulks.unique hbulks' hlength hrest

/-! ## Bytes that break the grammar -/

/-- A line that is not a header with the tag and an admissible number, or a line that is too
long. -/
inductive BadHeader (tag : UInt8) (admissible : Nat → Prop) : Bytes → Prop where
  | line {line more : Bytes} (plain : LF ∉ line) (short : line.length ≤ 32)
      (invalid : ∀ n, IsHeader tag n (line ++ [LF]) → ¬ admissible n) :
      BadHeader tag admissible (line ++ LF :: more)
  | long {line more : Bytes} (plain : LF ∉ line) (long : line.length = 33) :
      BadHeader tag admissible (line ++ more)

inductive BadEnding : Bytes → Prop where
  | first {c : UInt8} {more : Bytes} (cr : c ≠ CR) (lf : c ≠ LF) : BadEnding (c :: more)
  | second {c : UInt8} {more : Bytes} (lf : c ≠ LF) : BadEnding (CR :: c :: more)

section Bad

variable (alloc : Nat → Bool) (maxBulkLen : Nat)

/-- The lengths of an argument that are over no limit, of the server or of the allocator. -/
def Granted (n : Nat) : Prop := n ≤ maxBulkLen ∧ alloc n = true

inductive BadBulk : Bytes → Prop where
  | header {data : Bytes} (bad : BadHeader 36 (Granted alloc maxBulkLen) data) : BadBulk data
  | ending {header payload more : Bytes} (head : IsHeader 36 payload.length header)
      (limit : Granted alloc maxBulkLen payload.length) (bad : BadEnding more) :
      BadBulk (header ++ (payload ++ more))

/-- One of the arguments that are still missing is not a bulk. -/
inductive BadBulks : Nat → Bytes → Prop where
  | here {missing : Nat} {data : Bytes} (bad : BadBulk alloc maxBulkLen data) :
      BadBulks (missing + 1) data
  | later {missing : Nat} {payload bulk data : Bytes} (head : IsBulk maxBulkLen payload bulk)
      (granted : alloc payload.length = true) (bad : BadBulks missing data) :
      BadBulks (missing + 1) (bulk ++ data)

inductive BadFrame : Bytes → Prop where
  | header {data : Bytes} (bad : BadHeader 42 (· ≤ Parser.kMaxArgs) data) : BadFrame data
  | bulks {count : Nat} {header data : Bytes} (head : IsHeader 42 count header)
      (limit : count ≤ Parser.kMaxArgs) (bad : BadBulks alloc maxBulkLen count data) :
      BadFrame (header ++ data)

end Bad

/-! ## Header lines that are read -/

theorem header_cases (tag : UInt8) (admissible : Nat → Prop) (data : Bytes) :
    (∃ n line rest, data = line ++ rest ∧ IsHeader tag n line ∧ admissible n) ∨
      BadHeader tag admissible data ∨ LF ∉ data ∧ data.length ≤ 32 := by
  have hlong : ∀ line more : Bytes, LF ∉ line → 32 < line.length →
      BadHeader tag admissible (line ++ more) := by
    intro line more hplain hlen
    rw [← List.take_append_drop 33 line, List.append_assoc]
    exact .long (fun hmem => hplain (List.mem_of_mem_take hmem)) (by simp; omega)
  by_cases hmem : LF ∈ data
  · obtain ⟨line, more, rfl, hplain⟩ := List.eq_append_cons_of_mem hmem
    by_cases hshort : line.length ≤ 32
    · by_cases hvalid : ∃ n, IsHeader tag n (line ++ [LF]) ∧ admissible n
      · obtain ⟨n, hheader, hn⟩ := hvalid
        exact Or.inl ⟨n, line ++ [LF], more, by simp, hheader, hn⟩
      · exact Or.inr (Or.inl (.line hplain hshort fun n h hn => hvalid ⟨n, h, hn⟩))
    · exact Or.inr (Or.inl (hlong line _ hplain (Nat.lt_of_not_le hshort)))
  · by_cases hshort : data.length ≤ 32
    · exact Or.inr (Or.inr ⟨hmem, hshort⟩)
    · have hbad := hlong data [] hmem (Nat.lt_of_not_le hshort)
      rw [List.append_nil] at hbad
      exact Or.inr (Or.inl hbad)

theorem readLine_short {data : Bytes} (out : Bytes) (hplain : LF ∉ data)
    (hlen : out.length + data.length ≤ 32) : readLine data out = (.needMore, [], out ++ data) := by
  fun_induction readLine data out <;> grind

theorem readLine_long {body : Bytes} (out more : Bytes) (hplain : LF ∉ body)
    (hlen : out.length + body.length = 33) (hout : out.length ≤ 32) :
    ∃ rest header, readLine (body ++ more) out = (.bad, rest, header) := by
  induction body generalizing out with
  | nil => simp at hlen; omega
  | cons c body ih =>
    rw [List.mem_cons, not_or] at hplain
    rw [List.length_cons] at hlen
    rw [List.cons_append, readLine, if_neg (Ne.symm hplain.1)]
    split_ifs with hfull
    · exact ⟨_, _, rfl⟩
    · exact ih _ hplain.2 (by simp; omega) (by simpa using hfull)

theorem parseUint_eq_some {text : Bytes} (h : parseUint text = some n) : text ≠ [] ∧
    text.length ≤ 18 ∧ (∀ c ∈ text, Decimal.IsDigit c) ∧ Decimal.value text = n := by
  unfold parseUint at h
  split_ifs at h with hlen hdigits
  rw [not_or, Nat.not_lt] at hlen
  exact ⟨hlen.1, hlen.2, by simpa using hdigits, Option.some.inj h⟩

/-- A line whose number is parsed is a header line. -/
theorem isHeader_of_parseHeader (h : parseHeader tag (dropCr line) = some n) :
    IsHeader tag n (line ++ [LF]) := by
  obtain ⟨text, htext, hparse⟩ : ∃ text, dropCr line = tag :: text ∧ parseUint text = some n := by
    cases hline : dropCr line with
    | nil => simp [hline, parseHeader] at h
    | cons c text =>
      rw [hline, parseHeader] at h
      split_ifs at h with htag
      exact ⟨text, by rw [htag], h⟩
  obtain ⟨hne, hlen, hdigits, rfl⟩ := parseUint_eq_some hparse
  unfold dropCr at htext
  split_ifs at htext with hcr
  · obtain ⟨body, rfl⟩ := List.getLast?_eq_some_iff.mp hcr
    rw [List.dropLast_concat] at htext
    exact ⟨text, CRLF, by simp [htext, CRLF], Or.inr rfl, hne, hlen, hdigits, rfl⟩
  · exact ⟨text, [LF], by rw [htext], Or.inl rfl, hne, hlen, hdigits, rfl⟩

/-- A bad header is not read, or no admissible number is parsed from it. -/
theorem BadHeader.read {admissible : Nat → Prop} {data : Bytes}
    (h : BadHeader tag admissible data) :
    (∃ rest header, readLine data [] = (.bad, rest, header)) ∨
      ∃ rest header, readLine data [] = (.ok, rest, header) ∧
        ∀ n, parseHeader tag header = some n → ¬ admissible n := by
  cases h with
  | @line line more plain short invalid =>
    have hread := readLine_line [] more plain (by simpa using short)
    exact Or.inr ⟨more, _, hread, fun n hparse => invalid n (isHeader_of_parseHeader hparse)⟩
  | @long line more plain long =>
    exact Or.inl (readLine_long [] more plain (by simpa using long) (by simp))

namespace Parser

variable {alloc : Nat → Bool} {p : Parser} {data : Bytes}

/-! ## Bytes that are refused -/

theorem consume_fail (h : ∃ q message rest, p.turn alloc data = fail q message rest) :
    ∃ q rest, p.consume alloc data = .error q rest := by
  obtain ⟨q, message, rest, hturn⟩ := h
  rw [consume_eq, hturn]
  exact ⟨_, _, rfl⟩

theorem consume_badArray (hp : p.Fresh) (h : BadHeader 42 (· ≤ kMaxArgs) data) :
    ∃ q rest, p.consume alloc data = .error q rest := by
  apply consume_fail
  obtain ⟨rest, header, hread⟩ | ⟨rest, header, hread, hinvalid⟩ := h.read
  · simp only [turn, hp.state, turnArrayLen, hp.header, hread]
    exact ⟨_, _, _, rfl⟩
  · simp only [turn, hp.state, turnArrayLen, hp.header, hread]
    cases hparse : parseHeader 42 header with
    | none => exact ⟨_, _, _, rfl⟩
    | some count =>
      simp only [if_pos (Nat.lt_of_not_le (hinvalid count hparse))]
      exact ⟨_, _, _, rfl⟩

theorem consume_badBulkHeader (hstate : p.state = .bulkLen) (hheader : p.header = [])
    (h : BadHeader 36 (Granted alloc p.maxBulkLen) data) :
    ∃ q rest, p.consume alloc data = .error q rest := by
  apply consume_fail
  obtain ⟨rest, header, hread⟩ | ⟨rest, header, hread, hinvalid⟩ := h.read
  · simp only [turn, hstate, turnBulkLen, hheader, hread]
    exact ⟨_, _, _, rfl⟩
  · simp only [turn, hstate, turnBulkLen, hheader, hread]
    cases hparse : parseHeader 36 header with
    | none => exact ⟨_, _, _, rfl⟩
    | some n =>
      by_cases hmax : p.maxBulkLen < n
      · simp only [if_pos hmax]
        exact ⟨_, _, _, rfl⟩
      · have halloc : ¬ alloc n = true := fun halloc =>
          hinvalid n hparse ⟨Nat.le_of_not_lt hmax, halloc⟩
        simp only [if_neg hmax, if_pos halloc]
        exact ⟨_, _, _, rfl⟩

theorem consume_badEnding (hstate : p.state = .trailer) (h : BadEnding data) :
    ∃ q rest, p.consume alloc data = .error q rest := by
  cases h with
  | first cr lf =>
    apply consume_fail
    simp only [turn, hstate, turnTrailer, if_neg cr, if_neg lf]
    exact ⟨_, _, _, rfl⟩
  | @second c more lf =>
    have hcr : p.turn alloc (CR :: c :: more) =
        .again { p with state := .trailerLf } (c :: more) := by
      simp [turn, hstate, turnTrailer]
    rw [consume_again hcr]
    apply consume_fail
    simp only [turn, turnTrailerLf, if_neg lf]
    exact ⟨_, _, _, rfl⟩

theorem consume_badBulk (hstate : p.state = .bulkLen) (hheader : p.header = [])
    (h : BadBulk alloc p.maxBulkLen data) : ∃ q rest, p.consume alloc data = .error q rest := by
  cases h with
  | header bad => exact consume_badBulkHeader hstate hheader bad
  | ending head limit bad =>
    rw [consume_payload hstate hheader head limit.1 limit.2]
    exact consume_badEnding rfl bad

theorem consume_badBulks {missing : Nat} (h : BadBulks alloc p.maxBulkLen missing data)
    (hstate : p.state = .bulkLen) (hheader : p.header = [])
    (hindex : p.argIndex + missing = p.argc) :
    ∃ q rest, p.consume alloc data = .error q rest := by
  generalize hmax : p.maxBulkLen = maxBulkLen at h
  induction h generalizing p with
  | here bad => exact consume_badBulk hstate hheader (hmax ▸ bad)
  | @later missing payload bulk data head granted bad ih =>
    subst hmax
    rw [consume_bulk hstate hheader head granted]
    have hmissing : 0 < missing := by cases bad <;> exact Nat.succ_pos _
    refine ih (if_pos ?_) hheader ?_ rfl
    · dsimp only
      omega
    · simp only [nextArg]
      omega

theorem consume_badFrame (hp : p.Fresh) (h : BadFrame alloc p.maxBulkLen data) :
    ∃ q rest, p.consume alloc data = .error q rest := by
  cases h with
  | header bad => exact consume_badArray hp bad
  | @bulks count header data head limit bad =>
    have hpos : count ≠ 0 := by
      rintro rfl
      cases bad
    rw [consume_array hp head limit, if_neg hpos]
    exact consume_badBulks (p := { p with
      argc := count
      argIndex := 0
      args := []
      state := .bulkLen }) bad rfl hp.header (Nat.zero_add _)

/-! ## Every case -/

theorem consume_headerShort (hstate : p.state = .arrayLen ∨ p.state = .bulkLen)
    (hheader : p.header = []) (hplain : LF ∉ data) (hlen : data.length ≤ 32) :
    ∃ q, p.consume alloc data = .needMore q [] := by
  have hread := readLine_short [] hplain (by simpa using hlen)
  rw [consume_eq]
  rcases hstate with hstate | hstate
  · simp only [turn, hstate, turnArrayLen, hheader, hread]
    exact ⟨_, rfl⟩
  · simp only [turn, hstate, turnBulkLen, hheader, hread]
    exact ⟨_, rfl⟩

theorem ending_cases (data : Bytes) : (∃ ending rest, data = ending ++ rest ∧ IsEnding ending) ∨
    BadEnding data ∨ data = [] ∨ data = [CR] := by
  cases data with
  | nil => exact Or.inr (Or.inr (Or.inl rfl))
  | cons c data =>
    by_cases hlf : c = LF
    · subst hlf
      exact Or.inl ⟨[LF], data, rfl, Or.inl rfl⟩
    by_cases hcr : c = CR
    · subst hcr
      cases data with
      | nil => exact Or.inr (Or.inr (Or.inr rfl))
      | cons d data =>
        by_cases hd : d = LF
        · subst hd
          exact Or.inl ⟨CRLF, data, rfl, Or.inr rfl⟩
        · exact Or.inr (Or.inl (.second hd))
    · exact Or.inr (Or.inl (.first hcr hlf))

theorem consume_endingShort (hstate : p.state = .trailer) (hdata : data = [] ∨ data = [CR]) :
    ∃ q, p.consume alloc data = .needMore q [] := by
  rcases hdata with rfl | rfl
  · rw [consume_eq]
    simp only [turn, hstate, turnTrailer]
    exact ⟨_, rfl⟩
  · have hcr : p.turn alloc [CR] = .again { p with state := .trailerLf } [] := by
      simp [turn, hstate, turnTrailer]
    rw [consume_again hcr, consume_eq]
    exact ⟨_, rfl⟩

/-- A bulk whose payload is not complete. -/
theorem consume_payloadShort (hstate : p.state = .bulkLen) (hheader : p.header = [])
    (hline : IsHeader 36 n line) (hlimit : Granted alloc p.maxBulkLen n)
    (hshort : data.length < n) :
    ∃ q, p.consume alloc (line ++ data) = .needMore q [] := by
  obtain ⟨header, hread, hparse⟩ := readLine_of_isHeader hline (by decide) data
  have hmax : ¬ p.maxBulkLen < n := Nat.not_lt.mpr hlimit.1
  have hpos : n ≠ 0 := by omega
  have hturn : p.turn alloc (line ++ data) =
      .again { p with
        args := p.args ++ [List.replicate n 0]
        bulkLen := n
        bulkRead := 0
        state := .payload } data := by
    simp only [turn, hstate, turnBulkLen, hheader, hread, hparse, if_neg hmax, hlimit.2, not_true,
      if_false, if_neg hpos]
  rw [consume_again hturn, consume_eq, turn, turnPayload_short hshort]
  exact ⟨_, rfl⟩

/-- A parser that expects a bulk. -/
theorem bulk_cases (hstate : p.state = .bulkLen) (hheader : p.header = []) (data : Bytes) :
    (∃ payload bulk rest, data = bulk ++ rest ∧ IsBulk p.maxBulkLen payload bulk ∧
      alloc payload.length = true) ∨
    BadBulk alloc p.maxBulkLen data ∨ ∃ q, p.consume alloc data = .needMore q [] := by
  obtain ⟨n, header, rest, rfl, hline, hlimit⟩ | hbad | ⟨hplain, hlen⟩ :=
    header_cases 36 (Granted alloc p.maxBulkLen) data
  · by_cases hshort : rest.length < n
    · exact Or.inr (Or.inr (consume_payloadShort hstate hheader hline hlimit hshort))
    · have hpayload : (rest.take n).length = n := by simp; omega
      rw [← hpayload] at hline hlimit
      rw [← List.take_append_drop n rest]
      obtain ⟨ending, more, hmore, hending⟩ | hbad | hmore := ending_cases (rest.drop n)
      · refine Or.inl ⟨rest.take n, header ++ rest.take n ++ ending, more, ?_,
          ⟨⟨header, ending, rfl, hline, hending⟩, hlimit.1⟩, hlimit.2⟩
        simp only [hmore, List.append_assoc]
      · exact Or.inr (Or.inl (.ending hline hlimit hbad))
      · refine Or.inr (Or.inr ?_)
        rw [consume_payload hstate hheader hline hlimit.1 hlimit.2]
        exact consume_endingShort rfl hmore
  · exact Or.inr (Or.inl (.header hbad))
  · exact Or.inr (Or.inr (consume_headerShort (Or.inr hstate) hheader hplain hlen))

/-- A parser that expects the last arguments of a command. -/
theorem bulks_cases {missing : Nat} (hstate : p.state = .bulkLen) (hheader : p.header = [])
    (hindex : p.argIndex + (missing + 1) = p.argc) (data : Bytes) :
    (∃ args bulks rest, data = bulks ++ rest ∧ Bulks p.maxBulkLen args bulks ∧
      args.length = missing + 1 ∧ ∀ arg ∈ args, alloc arg.length = true) ∨
    BadBulks alloc p.maxBulkLen (missing + 1) data ∨
      ∃ q, p.consume alloc data = .needMore q [] := by
  induction missing generalizing p data with
  | zero =>
    obtain ⟨payload, bulk, rest, rfl, hbulk, halloc⟩ | hbad | hshort :=
      bulk_cases hstate hheader data
    · refine Or.inl ⟨[payload], bulk ++ [], rest, by simp, .cons hbulk .nil, rfl, ?_⟩
      simpa using halloc
    · exact Or.inr (Or.inl (.here hbad))
    · exact Or.inr (Or.inr hshort)
  | succ missing ih =>
    obtain ⟨payload, bulk, rest, rfl, hbulk, halloc⟩ | hbad | hshort :=
      bulk_cases hstate hheader data
    · rw [consume_bulk hstate hheader hbulk halloc]
      obtain ⟨args, bulks, more, rfl, hbulks, hlength, hgranted⟩ | hbad | hshort :=
        ih (p := nextArg { p with
          args := p.args ++ [payload]
          bulkLen := payload.length
          bulkRead := payload.length }) (if_pos (by dsimp only; omega)) hheader
          (by simp only [nextArg]; omega) rest
      · refine Or.inl ⟨payload :: args, bulk ++ bulks, more, by simp, .cons hbulk hbulks,
          by simp [hlength], ?_⟩
        exact List.forall_mem_cons.mpr ⟨halloc, hgranted⟩
      · exact Or.inr (Or.inl (.later hbulk halloc hbad))
      · exact Or.inr (Or.inr hshort)
    · exact Or.inr (Or.inl (.here hbad))
    · exact Or.inr (Or.inr hshort)

/-- A parser between two frames. -/
theorem frame_cases (alloc : Nat → Bool) (hp : p.Fresh) (data : Bytes) :
    (∃ args frame rest, data = frame ++ rest ∧ IsFrame p.maxBulkLen args frame ∧
      ∀ arg ∈ args, alloc arg.length = true) ∨
    BadFrame alloc p.maxBulkLen data ∨ ∃ q, p.consume alloc data = .needMore q [] := by
  obtain ⟨count, header, rest, rfl, hline, hlimit⟩ | hbad | ⟨hplain, hlen⟩ :=
    header_cases 42 (· ≤ kMaxArgs) data
  · cases count with
    | zero => exact Or.inl ⟨[], header ++ [], rest, by simp, ⟨⟨header, [], rfl, hline, .nil⟩,
        hlimit⟩, by simp⟩
    | succ missing =>
      rw [consume_array hp hline hlimit, if_neg (Nat.succ_ne_zero missing)]
      obtain ⟨args, bulks, more, rfl, hbulks, hlength, hgranted⟩ | hbad | hshort :=
        bulks_cases (p := { p with
          argc := missing + 1
          argIndex := 0
          args := []
          state := .bulkLen }) rfl hp.header (Nat.zero_add _) rest
      · rw [← hlength] at hline hlimit
        exact Or.inl ⟨args, header ++ bulks, more, by simp,
          ⟨⟨header, bulks, rfl, hline, hbulks⟩, hlimit⟩, hgranted⟩
      · exact Or.inr (Or.inl (.bulks hline hlimit hbad))
      · exact Or.inr (Or.inr hshort)
  · exact Or.inr (Or.inl (.header hbad))
  · exact Or.inr (Or.inr (consume_headerShort (Or.inl hp.state) hp.header hplain hlen))

/-! ## Streams -/

/-- Frames one after the other, with no argument over a limit. -/
def Accepted (alloc : Nat → Bool) (maxBulkLen : Nat) (frames : List (List Bytes))
    (stream : Bytes) : Prop :=
  Frames maxBulkLen frames stream ∧ ∀ args ∈ frames, ∀ arg ∈ args, alloc arg.length = true

/-- `frames` and `stream` are the most that can be accepted of `data`. -/
def Longest (alloc : Nat → Bool) (maxBulkLen : Nat) (data : Bytes) (frames : List (List Bytes))
    (stream : Bytes) : Prop :=
  ∀ frames' stream', Accepted alloc maxBulkLen frames' stream' → stream' <+: data →
    frames' <+: frames ∧ stream' <+: stream

theorem accepted_nil : Accepted alloc n [] [] := ⟨.nil, by simp⟩

theorem Accepted.cons {args : List Bytes} {frame stream : Bytes} {frames : List (List Bytes)}
    (hframe : IsFrame n args frame) (hgranted : ∀ arg ∈ args, alloc arg.length = true)
    (h : Accepted alloc n frames stream) : Accepted alloc n (args :: frames) (frame ++ stream) :=
  ⟨.cons hframe h.1, List.forall_mem_cons.mpr ⟨hgranted, h.2⟩⟩

theorem Longest.cons {args : List Bytes} {frame stream : Bytes} {frames : List (List Bytes)}
    (hframe : IsFrame n args frame) (h : Longest alloc n rest frames stream) :
    Longest alloc n (frame ++ rest) (args :: frames) (frame ++ stream) := by
  rintro frames' stream' ⟨hframes, hgranted⟩ ⟨more, hmore⟩
  cases hframes with
  | nil => exact ⟨List.nil_prefix, List.nil_prefix⟩
  | @cons args' frame' frames' stream' head tail =>
    rw [List.append_assoc] at hmore
    obtain ⟨rfl, hrest⟩ := head.unique hframe hmore
    rw [hrest] at hmore
    obtain rfl := List.append_cancel_right hmore
    obtain ⟨hpre, hpre'⟩ := h frames' stream' ⟨tail, (List.forall_mem_cons.mp hgranted).2⟩
      ⟨more, hrest⟩
    exact ⟨List.cons_prefix_cons.mpr ⟨rfl, hpre⟩, (List.prefix_append_right_inj _).mpr hpre'⟩

/-- Where no command is returned, nothing is accepted. -/
theorem longest_nil (hp : p.Fresh)
    (hnone : ∀ command q rest, p.consume alloc data ≠ .ready command q rest) :
    Longest alloc p.maxBulkLen data [] [] := by
  rintro frames' stream' ⟨hframes, hgranted⟩ ⟨more, rfl⟩
  cases hframes with
  | nil => exact ⟨List.nil_prefix, List.nil_prefix⟩
  | cons head tail =>
    obtain ⟨q, hready, -⟩ := consume_frame hp head (List.forall_mem_cons.mp hgranted).1 (_ ++ more)
    rw [List.append_assoc] at hnone
    exact absurd hready (hnone _ _ _)

theorem Fresh.feed_eq (hp : p.Fresh) (data : Bytes) :
    p.feed alloc data = (p.consume alloc data).feed alloc := by
  by_cases hdata : data = []
  · subst hdata
    rw [consume_eq, turn, hp.state]
    rfl
  · exact Parser.feed_eq hp.resting hdata

/-- What a parser between two frames makes of any bytes. -/
structure Taken (alloc : Nat → Bool) (p : Parser) (data : Bytes) (frames : List (List Bytes))
    (stream rest : Bytes) : Prop where
  split : data = stream ++ rest
  accepted : Accepted alloc p.maxBulkLen frames stream
  longest : Longest alloc p.maxBulkLen data frames stream
  commands : (p.feed alloc data).commands = frames.map classify
  failed : (p.feed alloc data).parser.state = .failed ↔ BadFrame alloc p.maxBulkLen rest
  asks : (p.feed alloc data).parser.state ≠ .failed →
    (p.feed alloc data).parser.consume alloc [] = .needMore (p.feed alloc data).parser []

/-- A frame, and then what the parser makes of the rest. -/
theorem Taken.cons {q : Parser} {args : List Bytes} {frame stream rest' : Bytes}
    {frames : List (List Bytes)} (hp : p.Fresh) (hframe : IsFrame p.maxBulkLen args frame)
    (hgranted : ∀ arg ∈ args, alloc arg.length = true) (hmax : q.maxBulkLen = p.maxBulkLen)
    (hready : p.consume alloc (frame ++ rest) = .ready (classify args) q rest)
    (h : Taken alloc q rest frames stream rest') :
    Taken alloc p (frame ++ rest) (args :: frames) (frame ++ stream) rest' := by
  have hfeed : p.feed alloc (frame ++ rest) =
      { q.feed alloc rest with
        commands := classify args :: (q.feed alloc rest).commands } := by
    rw [hp.feed_eq, hready]
    rfl
  have haccepted := h.accepted
  have hlongest := h.longest
  have hfailed := h.failed
  rw [hmax] at haccepted hlongest hfailed
  refine ⟨?_, haccepted.cons hframe hgranted, hlongest.cons hframe, ?_, ?_, ?_⟩
  · rw [h.split, List.append_assoc]
  · rw [hfeed, h.commands]
    rfl
  · rw [hfeed]
    exact hfailed
  · rw [hfeed]
    exact h.asks

/-- A call that returns no command. -/
theorem Taken.stop {q : Parser} (hp : p.Fresh)
    (hfeed : (p.consume alloc data).feed alloc = ⟨[], q, rest⟩)
    (hnone : ∀ command q rest, p.consume alloc data ≠ .ready command q rest)
    (hfailed : q.state = .failed ↔ BadFrame alloc p.maxBulkLen data)
    (hasks : q.state ≠ .failed → q.consume alloc [] = .needMore q []) :
    Taken alloc p data [] [] data := by
  rw [← hp.feed_eq] at hfeed
  refine ⟨rfl, accepted_nil, longest_nil hp hnone, ?_, ?_, ?_⟩
  · rw [hfeed]
    rfl
  · rwa [hfeed]
  · rwa [hfeed]

theorem taken (alloc : Nat → Bool) (hp : p.Fresh) (data : Bytes) : ∃ frames stream rest,
    Taken alloc p data frames stream rest := by
  induction hn : data.length using Nat.strong_induction_on generalizing p data with
  | _ k ih =>
    have hsound := consume_sound alloc data hp.resting.buffered
    obtain ⟨args, frame, rest, rfl, hframe, hgranted⟩ | hbad | ⟨q, hmore⟩ :=
      frame_cases alloc hp data
    · obtain ⟨q, hready, hq, hmax⟩ := consume_frame hp hframe hgranted rest
      have hlt := consume_ready hp.resting hready
      obtain ⟨frames, stream, rest', h⟩ := ih rest.length (hn ▸ hlt) hq rest rfl
      exact ⟨_, _, _, h.cons hp hframe hgranted hmax hready⟩
    · obtain ⟨q, rest, herror⟩ := consume_badFrame hp hbad
      have hfeed : (p.consume alloc data).feed alloc = ⟨[], q, rest⟩ := by
        rw [herror]
        rfl
      rw [herror] at hsound
      refine ⟨[], [], data, .stop hp hfeed ?_ (iff_of_true hsound.1 hbad) ?_⟩
      · simp [herror]
      · exact fun hnot => absurd hsound.1 hnot
    · have hfeed : (p.consume alloc data).feed alloc = ⟨[], q, []⟩ := by
        rw [hmore]
        rfl
      rw [hmore] at hsound
      refine ⟨[], [], data, .stop hp hfeed ?_ (iff_of_false hsound.2.1 ?_) ?_⟩
      · simp [hmore]
      · intro hbad
        obtain ⟨q', rest', herror⟩ := consume_badFrame hp hbad
        rw [hmore] at herror
        cases herror
      · intro _
        have hagain : p.consume alloc (data ++ []) = (p.consume alloc data).resume alloc [] :=
          consume_append hp.resting.buffered []
        rw [List.append_nil, hmore] at hagain
        exact hagain.symm

/-- The commands returned are those of the longest run of frames that the bytes start with. The
parser has failed if what follows breaks the grammar, and takes no byte then; otherwise it asks for
more. -/
theorem accepts_exactly (alloc : Nat → Bool) (maxBulkLen : Nat) (chunks : List Bytes) :
    let fed := (init maxBulkLen).feedAll alloc chunks
    ∃ frames stream rest, chunks.flatten = stream ++ rest ∧
      Accepted alloc maxBulkLen frames stream ∧
      Longest alloc maxBulkLen chunks.flatten frames stream ∧
      List.Forall₂ Spells frames fed.commands ∧
      (fed.parser.state = .failed ↔ BadFrame alloc maxBulkLen rest) ∧
      (fed.parser.state ≠ .failed → fed.parser.consume alloc [] = .needMore fed.parser []) ∧
      (fed.parser.state = .failed →
        ∀ data, fed.parser.consume alloc data = .error fed.parser data) := by
  intro fed
  have hinit := fresh_init maxBulkLen
  have hall := feedAll_eq alloc hinit.resting chunks
  rw [Fed.outcome, Fed.outcome, Prod.mk.injEq] at hall
  obtain ⟨frames, stream, rest, h⟩ := taken alloc hinit chunks.flatten
  have hcommands := h.commands
  have hfailed := h.failed
  have hasks := h.asks
  rw [← hall.1] at hcommands
  rw [← hall.2] at hfailed hasks
  refine ⟨frames, stream, rest, h.split, h.accepted, h.longest, ?_, hfailed, hasks, ?_⟩
  · rw [hcommands, List.forall₂_map_right_iff]
    exact List.forall₂_same.mpr fun args _ => spells_classify args
  · intro hstate data
    rw [consume_eq, turn, hstate]

end Parser

end Protocol

end PolyCache
