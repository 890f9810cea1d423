import PolyCache.Library.Transition
import PolyCache.Protocol.Consume

/-!
# The state of the parser

What holds of the fields of a parser after every turn of every call, on any ranges of bytes. The
copy into an argument stays within it, and what is delivered has been received: the bytes of an
argument follow one another in the bytes that the calls have taken.
-/

namespace PolyCache

namespace Protocol

namespace Parser

/-! ## Runs -/

/-- The bytes that a result leaves. -/
def Consumed.rest : Consumed → Bytes
  | .needMore _ rest | .ready _ _ rest | .error _ rest => rest

def Consumed.parser : Consumed → Parser
  | .needMore p _ | .ready _ p _ | .error p _ => p

/-- A parser in the course of its calls. -/
structure Calling where
  parser : Parser
  /-- what is left of the range, while a call is under way -/
  left : Option Bytes
  /-- the bytes that all calls have taken -/
  taken : Bytes

inductive CallEvent where
  | call (data : Bytes)
  | turn
  | ret (result : Consumed)

/-- A call begins on any range; each turn takes some bytes off its front. -/
inductive Calling.Step : Calling → CallEvent → Calling → Prop where
  | call {p : Parser} {taken : Bytes} (data : Bytes) :
      Step ⟨p, none, taken⟩ (.call data) ⟨p, some data, taken⟩
  | turn {p p' : Parser} {front rest taken : Bytes} (alloc : Nat → Bool)
      (again : p.turn alloc (front ++ rest) = .again p' rest) :
      Step ⟨p, some (front ++ rest), taken⟩ .turn ⟨p', some rest, taken ++ front⟩
  | ret {p : Parser} {front taken : Bytes} {result : Consumed} (alloc : Nat → Bool)
      (stop : p.turn alloc (front ++ result.rest) = .stop result) :
      Step ⟨p, some (front ++ result.rest), taken⟩ (.ret result)
        ⟨result.parser, none, taken ++ front⟩

/-- The runs of a fresh parser. -/
def callSystem (maxBulkLen : Nat) : Transition.System Calling CallEvent where
  init s := s = ⟨init maxBulkLen, none, []⟩
  step := Calling.Step

/-! ## What a turn takes -/

theorem readLine_suffix (data out : Bytes) : (readLine data out).2.1 <:+ data := by
  fun_induction readLine data out with
  | case1 => exact List.suffix_rfl
  | case2 => exact List.suffix_cons _ _
  | case3 => exact List.suffix_cons _ _
  | case4 c data out hc hlen ih => exact ih.trans (List.suffix_cons _ _)

/-- What a turn leaves. -/
def Turn.rest : Turn → Bytes
  | .again _ rest => rest
  | .stop result => result.rest

/-- A turn takes bytes off the front of the range. -/
theorem turn_suffix (alloc : Nat → Bool) (p : Parser) (data : Bytes) :
    (p.turn alloc data).rest <:+ data := by
  have hline := readLine_suffix data p.header
  cases hstate : p.state <;> simp only [turn, hstate]
  case arrayLen =>
    rw [turnArrayLen]
    split
    · simp_all [Turn.rest, Consumed.rest]
    · simp_all [Turn.rest, Consumed.rest, fail]
    · dsimp only
      split
      · simp_all [Turn.rest, Consumed.rest, fail]
      · split_ifs <;> simp_all [Turn.rest, Consumed.rest, fail]
  case bulkLen =>
    rw [turnBulkLen]
    split
    · simp_all [Turn.rest, Consumed.rest]
    · simp_all [Turn.rest, Consumed.rest, fail]
    · dsimp only
      split
      · simp_all [Turn.rest, Consumed.rest, fail]
      · split_ifs <;> simp_all [Turn.rest, Consumed.rest, fail]
  case payload =>
    rw [turnPayload]
    dsimp only
    split_ifs <;> exact List.drop_suffix _ _
  case trailer =>
    cases data with
    | nil => exact List.suffix_rfl
    | cons c rest =>
      rw [turnTrailer]
      split_ifs <;> exact List.suffix_cons _ _
  case trailerLf =>
    cases data with
    | nil => exact List.suffix_rfl
    | cons c rest =>
      rw [turnTrailerLf]
      split_ifs <;> exact List.suffix_cons _ _
  case ready => exact List.suffix_rfl
  case failed => exact List.suffix_rfl

/-! ## The fields -/

/-- An argument has been begun. -/
def Open (p : Parser) : Prop :=
  p.state = .payload ∨ p.state = .trailer ∨ p.state = .trailerLf

/-- What the fields of a parser say in each of its states. -/
structure Valid (p : Parser) : Prop where
  header_le : p.header.length ≤ 33
  header_short : p.state ≠ .failed → p.header.length ≤ 32
  header_nil : p.Open → p.header = []
  argc_le : p.argc ≤ kMaxArgs
  index_le : p.argIndex ≤ p.argc
  index_lt : p.state = .bulkLen ∨ p.Open → p.argIndex < p.argc
  args_bulkLen : p.state = .bulkLen → p.args.length = p.argIndex
  args_open : p.Open → p.args.length = p.argIndex + 1
  args_ready : p.state = .ready → p.args.length = p.argc
  payload : p.state = .payload → ∃ back, p.args.getLast? = some back ∧
    back.length = p.bulkLen ∧ p.bulkLen ≤ p.maxBulkLen ∧ p.bulkRead < p.bulkLen

variable {alloc : Nat → Bool} {p p' : Parser} {data rest : Bytes}

theorem valid_init (maxBulkLen : Nat) : (init maxBulkLen).Valid := by
  constructor <;> simp [init, Open]

theorem readLine_header (data : Bytes) {out : Bytes} (h : out.length ≤ 32) :
    (readLine data out).2.2.length ≤ 33 ∧
      ((readLine data out).1 = .needMore → (readLine data out).2.2.length ≤ 32) := by
  fun_induction readLine data out <;> grind

theorem Valid.nextArg (h : p.Valid) (hopen : p.Open) : p.nextArg.Valid := by
  have hheader := h.header_nil hopen
  have hargs := h.args_open hopen
  have hlt := h.index_lt (.inr hopen)
  have hargc := h.argc_le
  constructor <;> simp only [Parser.nextArg, Open] <;> grind

theorem length_fillBack (args : List Bytes) (offset : Nat) (source : Bytes) :
    (fillBack args offset source).length = args.length := by
  cases hlast : args.getLast? with
  | none => simp [fillBack, hlast]
  | some back =>
    have hne : args ≠ [] := by
      rintro rfl
      cases hlast
    have hpos := List.length_pos_iff.mpr hne
    simp only [fillBack, hlast, List.length_append, List.length_dropLast, List.length_singleton]
    omega

/-- What a turn that goes round again leaves is valid. -/
theorem Valid.advance (h : p.Valid) (ha : Advance alloc p data p' rest) : p'.Valid := by
  cases ha with
  | array state line parsed limit =>
    constructor <;> simp only [Open] <;> grind
  | @bulk p data header n state line parsed limit granted =>
    have hlast : (p.args ++ [List.replicate n 0]).getLast? = some (List.replicate n 0) :=
      List.getLast?_concat
    have hargs := h.args_bulkLen state
    have hlt := h.index_lt (.inl state)
    have hargc := h.argc_le
    constructor <;> simp only [Open] <;> grind
  | filled state enough =>
    have hopen : p.Open := .inl state
    have hheader := h.header_nil hopen
    have hargs := h.args_open hopen
    have hlt := h.index_lt (.inr hopen)
    have hargc := h.argc_le
    constructor <;> simp only [Open] <;> grind [length_fillBack]
  | cr state =>
    have hopen : p.Open := .inr (.inl state)
    have hheader := h.header_nil hopen
    have hargs := h.args_open hopen
    have hlt := h.index_lt (.inr hopen)
    have hargc := h.argc_le
    constructor <;> simp only [Open] <;> grind
  | lf state => exact h.nextArg (.inr state)

/-- A failing turn leaves the counts, the limit and a header of at most one byte too many. -/
theorem turn_error (hle : p.header.length ≤ 33)
    (hshort : p.state ≠ .failed → p.header.length ≤ 32)
    (h : p.turn alloc data = .stop (.error p' rest)) :
    p'.header.length ≤ 33 ∧ p'.argc = p.argc ∧ p'.argIndex = p.argIndex ∧
      p'.maxBulkLen = p.maxBulkLen := by
  cases hstate : p.state <;> simp only [turn, hstate] at h
  case arrayLen =>
    have hheader := (readLine_header data (hshort (by simp [hstate]))).1
    simp only [turnArrayLen, fail] at h
    grind
  case bulkLen =>
    have hheader := (readLine_header data (hshort (by simp [hstate]))).1
    simp only [turnBulkLen, fail] at h
    grind
  case payload =>
    simp only [turnPayload] at h
    grind
  case trailer =>
    cases data <;> simp only [turnTrailer, fail] at h <;> grind
  case trailerLf =>
    cases data <;> simp only [turnTrailerLf, fail] at h <;> grind
  case ready => cases h
  case failed =>
    cases h
    exact ⟨hle, rfl, rfl, rfl⟩

theorem length_writeAt_of_le {buffer source : Bytes} {offset : Nat}
    (h : offset + source.length ≤ buffer.length) :
    (writeAt buffer offset source).length = buffer.length := by
  simp only [writeAt, List.length_append, List.length_take, List.length_drop]
  omega

theorem getLast?_fillBack {args : List Bytes} {back : Bytes} (h : args.getLast? = some back)
    (offset : Nat) (source : Bytes) :
    (fillBack args offset source).getLast? = some (writeAt back offset source) := by
  simp [fillBack, h]

/-- What a call returns with is valid. -/
theorem Valid.stop (h : p.Valid) {result : Consumed} (hs : p.turn alloc data = .stop result) :
    result.parser.Valid := by
  cases turn_stop hs with
  | @line p header state line =>
    have hlive : p.state ≠ .failed := by
      rintro hfailed
      simp [hfailed] at state
    have hheader := (readLine_header data (h.header_short hlive)).2
    rw [line] at hheader
    have hnotOpen : ¬ p.Open := by
      rintro (hstate | hstate | hstate) <;> simp [hstate] at state
    exact ⟨(hheader rfl).trans (by decide), fun _ => hheader rfl,
      fun hopen => absurd hopen hnotOpen, h.argc_le, h.index_le, h.index_lt, h.args_bulkLen,
      h.args_open, h.args_ready, h.payload⟩
  | @short p state short =>
    have hopen : p.Open := .inl state
    obtain ⟨back, hlast, hlength, hmax, hlt⟩ := h.payload state
    have hfill : p.bulkRead + data.length ≤ back.length := by omega
    refine ⟨h.header_le, h.header_short, h.header_nil, h.argc_le, h.index_le, h.index_lt,
      fun hbulk => ?_, fun _ => ?_, fun hready => ?_, fun _ => ?_⟩
    · exact absurd (state.symm.trans hbulk) (by decide)
    · exact (length_fillBack _ _ _).trans (h.args_open hopen)
    · exact absurd (state.symm.trans hready) (by decide)
    · refine ⟨_, getLast?_fillBack hlast _ _, ?_, hmax, ?_⟩
      · exact (length_writeAt_of_le hfill).trans hlength
      · show p.bulkRead + data.length < p.bulkLen
        omega
  | trailer => exact h
  | @ready p state =>
    have hheader := h.header_short (by simp [state])
    constructor <;> simp only [Consumed.parser, Open] <;> grind [Valid]
  | @error p p' rest state taken =>
    obtain ⟨hheader, hargc, hindex, -⟩ := turn_error h.header_le h.header_short hs
    have hlimit := h.argc_le
    have hle := h.index_le
    constructor <;> simp only [Consumed.parser, Open] <;> grind

theorem Advance.maxBulkLen (h : Advance alloc p data p' rest) : p'.maxBulkLen = p.maxBulkLen := by
  cases h <;> rfl

theorem Valid.maxBulkLen (h : p.Valid) {result : Consumed}
    (hs : p.turn alloc data = .stop result) : result.parser.maxBulkLen = p.maxBulkLen := by
  cases turn_stop hs with
  | error => exact (turn_error h.header_le h.header_short hs).2.2.2
  | _ => rfl

/-! ## Received arguments -/

/-- The arguments are found in the bytes, one after the other, each as a whole. -/
inductive Stretches : List Bytes → Bytes → Prop where
  | none (taken : Bytes) : Stretches [] taken
  | gap {args : List Bytes} {taken : Bytes} (more : Bytes) (h : Stretches args taken) :
      Stretches args (taken ++ more)
  | arg {args : List Bytes} {taken : Bytes} (arg : Bytes) (h : Stretches args taken) :
      Stretches (args ++ [arg]) (taken ++ arg)

/-- Every byte of the arguments has come from the calls: of a payload that is being filled, those
before `bulkRead`. -/
structure Received (p : Parser) (taken : Bytes) : Prop where
  whole : p.state = .bulkLen ∨ p.state = .trailer ∨ p.state = .trailerLf ∨ p.state = .ready →
    Stretches p.args taken
  filling : p.state = .payload → ∃ before back, p.args.getLast? = some back ∧
    taken = before ++ back.take p.bulkRead ∧ Stretches p.args.dropLast before

theorem received_of_arrayLen {taken : Bytes} (h : p.state = .arrayLen) : p.Received taken :=
  ⟨by simp [h], by simp [h]⟩

theorem received_of_failed {taken : Bytes} (h : p.state = .failed) : p.Received taken :=
  ⟨by simp [h], by simp [h]⟩

/-- The copy puts the source behind what has been read. -/
theorem take_writeAt {buffer source : Bytes} {offset : Nat}
    (h : offset + source.length ≤ buffer.length) :
    (writeAt buffer offset source).take (offset + source.length) =
      buffer.take offset ++ source := by
  have hlen : (buffer.take offset ++ source).length = offset + source.length := by simp; omega
  rw [writeAt, ← hlen, List.take_left]

theorem Received.nextArg {taken : Bytes} (h : p.Received taken)
    (hstate : p.state = .trailer ∨ p.state = .trailerLf) (c : UInt8) :
    p.nextArg.Received (taken ++ [c]) := by
  have hargs : Stretches p.args taken := h.whole (by tauto)
  constructor
  · intro _
    exact hargs.gap [c]
  · intro hpayload
    simp only [Parser.nextArg] at hpayload
    grind

/-- A turn that goes round again takes `front`. -/
theorem Received.advance {front taken : Bytes} (h : p.Received taken) (hv : p.Valid)
    (ha : Advance alloc p (front ++ rest) p' rest) : p'.Received (taken ++ front) := by
  generalize hdata : front ++ rest = data at ha
  cases ha with
  | array state line parsed limit =>
    constructor
    · intro _
      exact .none _
    · intro hpayload
      dsimp only at hpayload
      grind
  | @bulk _ _ header n state line parsed limit granted =>
    have hargs : Stretches p.args (taken ++ front) := (h.whole (.inl state)).gap front
    constructor
    · -- an empty argument is there at once
      intro hwhole
      have hzero : n = 0 := by grind
      subst hzero
      simpa using hargs.arg []
    · intro hpayload
      refine ⟨taken ++ front, List.replicate n 0, List.getLast?_concat, ?_, ?_⟩
      · simp
      · simpa using hargs
  | filled state enough =>
    obtain ⟨back, hlast, hlength, hmax, hlt⟩ := hv.payload state
    obtain ⟨before, back', hlast', htaken, hargs⟩ := h.filling state
    obtain rfl : back = back' := Option.some.inj (hlast.symm.trans hlast')
    have hfront : front = data.take (p.bulkLen - p.bulkRead) :=
      List.append_cancel_right (hdata.trans (List.take_append_drop _ data).symm)
    have hneed : front.length = p.bulkLen - p.bulkRead := by
      rw [hfront, List.length_take]
      omega
    refine ⟨?_, fun hpayload => absurd hpayload (by simp)⟩
    intro _
    have hwhole : writeAt back p.bulkRead front = back.take p.bulkRead ++ front := by
      have hfits : p.bulkRead + front.length ≤ back.length := by omega
      have htake := take_writeAt hfits
      have hsame := length_writeAt_of_le hfits
      rwa [List.take_of_length_le (by omega)] at htake
    have hfill : fillBack p.args p.bulkRead (data.take (p.bulkLen - p.bulkRead)) =
        p.args.dropLast ++ [back.take p.bulkRead ++ front] := by
      simp only [fillBack, hlast, ← hfront, hwhole]
    simpa only [hfill, htaken, List.append_assoc] using hargs.arg (back.take p.bulkRead ++ front)
  | cr state =>
    obtain rfl : front = [CR] := List.append_cancel_right hdata
    constructor
    · intro _
      exact (h.whole (.inr (.inl state))).gap _
    · intro hpayload
      exact absurd hpayload (by simp)
  | lf state =>
    obtain rfl : front = [LF] := List.append_cancel_right hdata
    exact h.nextArg state LF

/-- A turn that returns takes `front`. -/
theorem Received.stop {front taken : Bytes} (h : p.Received taken) (hv : p.Valid)
    {result : Consumed} (hs : Stop p (front ++ result.rest) result) :
    result.parser.Received (taken ++ front) := by
  generalize hdata : front ++ result.rest = data at hs
  cases hs with
  | line state line =>
    constructor
    · intro hwhole
      have hbulk : p.state = .bulkLen := by
        simp only [Consumed.parser] at hwhole
        grind
      exact (h.whole (.inl hbulk)).gap front
    · intro hpayload
      simp only [Consumed.parser] at hpayload
      grind
  | short state short =>
    obtain ⟨back, hlast, hlength, hmax, hlt⟩ := hv.payload state
    obtain ⟨before, back', hlast', htaken, hargs⟩ := h.filling state
    obtain rfl : back = back' := Option.some.inj (hlast.symm.trans hlast')
    obtain rfl : front = data := by simpa [Consumed.rest] using hdata
    constructor
    · intro hwhole
      simp only [Consumed.parser, state] at hwhole
      grind
    · intro _
      have hfits : p.bulkRead + front.length ≤ back.length := by omega
      refine ⟨before, _, getLast?_fillBack hlast _ _, ?_, ?_⟩
      · rw [htaken, List.append_assoc, ← take_writeAt hfits]
        rfl
      · simpa [Consumed.parser, fillBack, hlast] using hargs
  | trailer state =>
    obtain rfl : front = [] := (List.append_eq_nil_iff.mp hdata).1
    rwa [List.append_nil]
  | ready state => exact received_of_arrayLen rfl
  | error state taken => exact received_of_failed state

theorem Stretches.classify {args : List Bytes} {taken : Bytes} (h : Stretches args taken) :
    Stretches ((Protocol.classify args).verb :: (Protocol.classify args).args) taken := by
  cases args with
  | nil => simpa [Protocol.classify] using h.arg []
  | cons verb args => exact h

theorem Received.delivered {taken : Bytes} {command : Command} (h : p.Received taken)
    (hs : Stop p data (.ready command p' rest)) :
    Stretches (command.verb :: command.args) taken := by
  cases hs with
  | ready state => exact (h.whole (by tauto)).classify

/-! ## Every run -/

/-- The turns of a call, from the one that is next. -/
theorem reaches_turns (alloc : Nat → Bool) {maxBulkLen : Nat} (p : Parser) (data : Bytes)
    {h : List CallEvent} {taken : Bytes}
    (hr : (callSystem maxBulkLen).Reaches h ⟨p, some data, taken⟩) :
    ∃ n front, front ++ (p.consume alloc data).rest = data ∧ (callSystem maxBulkLen).Reaches
      (.ret (p.consume alloc data) :: (List.replicate n .turn ++ h))
      ⟨(p.consume alloc data).parser, none, taken ++ front⟩ := by
  revert h taken
  refine consume_induction alloc (P := fun p data => ∀ {h : List CallEvent} {taken : Bytes},
    (callSystem maxBulkLen).Reaches h ⟨p, some data, taken⟩ → ∃ n front,
      front ++ (p.consume alloc data).rest = data ∧ (callSystem maxBulkLen).Reaches
        (.ret (p.consume alloc data) :: (List.replicate n .turn ++ h))
        ⟨(p.consume alloc data).parser, none, taken ++ front⟩) ?_ p data
  intro p data ih h taken hr
  obtain ⟨front, hfront⟩ := turn_suffix alloc p data
  rw [consume_eq]
  cases hturn : p.turn alloc data with
  | stop result =>
    obtain rfl : front ++ result.rest = data := by rwa [hturn] at hfront
    exact ⟨0, front, rfl, hr.next (.ret alloc hturn)⟩
  | again p' rest =>
    obtain rfl : front ++ rest = data := by rwa [hturn] at hfront
    obtain ⟨n, more, hmore, hruns⟩ := ih p' rest (turn_again hturn) (hr.next (.turn alloc hturn))
    refine ⟨n + 1, front ++ more, by rw [List.append_assoc, hmore], ?_⟩
    rwa [List.append_assoc, List.append_cons, ← List.replicate_succ'] at hruns

/-- Each call of `consume` is a run of its turns. -/
theorem reaches_consume (alloc : Nat → Bool) {maxBulkLen : Nat} {h : List CallEvent} {p : Parser}
    {taken : Bytes} (hr : (callSystem maxBulkLen).Reaches h ⟨p, none, taken⟩) (data : Bytes) :
    ∃ n front, front ++ (p.consume alloc data).rest = data ∧ (callSystem maxBulkLen).Reaches
      (.ret (p.consume alloc data) :: (List.replicate n .turn ++ .call data :: h))
      ⟨(p.consume alloc data).parser, none, taken ++ front⟩ :=
  reaches_turns alloc p data (hr.next (.call data))

/-- What every run keeps. -/
structure Kept (maxBulkLen : Nat) (h : List CallEvent) (s : Calling) : Prop where
  valid : s.parser.Valid
  limit : s.parser.maxBulkLen = maxBulkLen
  received : s.parser.Received s.taken
  delivered : ∀ command p rest, .ret (.ready command p rest) ∈ h →
    Stretches (command.verb :: command.args) s.taken

theorem Kept.step {maxBulkLen : Nat} {h : List CallEvent} {s t : Calling} {e : CallEvent}
    (hk : Kept maxBulkLen h s) (hstep : s.Step e t) : Kept maxBulkLen (e :: h) t := by
  cases hstep with
  | call data => exact ⟨hk.valid, hk.limit, hk.received, by simpa using hk.delivered⟩
  | @turn _ _ front rest _ alloc again =>
    have hadvance := turn_again again
    refine ⟨hk.valid.advance hadvance, hadvance.maxBulkLen.trans hk.limit,
      hk.received.advance hk.valid hadvance, ?_⟩
    intro command p rest hmem
    simp only [List.mem_cons, reduceCtorEq, false_or] at hmem
    exact (hk.delivered command p rest hmem).gap front
  | @ret p front _ result alloc stop =>
    refine ⟨hk.valid.stop stop, (hk.valid.maxBulkLen stop).trans hk.limit,
      hk.received.stop hk.valid (turn_stop stop), ?_⟩
    intro command q rest hmem
    rcases List.mem_cons.mp hmem with hret | hmem
    · -- the command that this turn delivers
      obtain rfl := CallEvent.ret.inj hret
      exact (hk.received.delivered (turn_stop stop)).gap front
    · exact (hk.delivered command q rest hmem).gap front

/-- In every run of calls on any ranges, after every turn: the fields are valid, the copy of a
payload of any length stays within its argument, and the arguments of every command delivered are
found in the bytes taken. -/
theorem parser_invariant {maxBulkLen : Nat} {h : List CallEvent} {s : Calling}
    (hr : (callSystem maxBulkLen).Reaches h s) :
    s.parser.Valid ∧ s.parser.maxBulkLen = maxBulkLen ∧ s.parser.Received s.taken ∧
      (s.parser.state = .payload → ∀ len, ∃ back, s.parser.args.getLast? = some back ∧
        s.parser.bulkRead + min (s.parser.bulkLen - s.parser.bulkRead) len ≤ back.length) ∧
      ∀ command p rest, .ret (.ready command p rest) ∈ h →
        Stretches (command.verb :: command.args) s.taken := by
  have hk : Kept maxBulkLen h s :=
    hr.invariant
      (fun s hs => by
        obtain rfl := hs
        exact ⟨valid_init maxBulkLen, rfl, received_of_arrayLen rfl, by simp⟩)
      fun _ _ _ _ _ hk hstep => hk.step hstep
  refine ⟨hk.valid, hk.limit, hk.received, ?_, hk.delivered⟩
  intro hpayload len
  obtain ⟨back, hlast, hlength, -, hlt⟩ := hk.valid.payload hpayload
  exact ⟨back, hlast, by omega⟩

/-- A payload of which one byte of two has come. -/
theorem parser_invariant_partial :
    let p := ((init 4).consume (fun _ => true) (ascii "*1\r\n$2\r\nh")).parser
    p.state = .payload ∧ p.bulkRead = 1 ∧ p.Valid := by
  have hstart : (callSystem 4).Reaches [] ⟨init 4, none, []⟩ := .start rfl
  obtain ⟨n, front, -, hr⟩ := reaches_consume (fun _ => true) hstart (ascii "*1\r\n$2\r\nh")
  exact ⟨by decide, by decide, (parser_invariant hr).1⟩

end Parser

end Protocol

end PolyCache
