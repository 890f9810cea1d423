import PolyCache.Protocol.Parser

/-!
# How consume takes bytes

`consume` ends because each turn takes a byte or leaves the payload state. Its result on a buffer
is determined turn by turn, and it does not depend on where the buffer was cut: what one call
returns on a prefix tells what it returns on the whole.
-/

namespace PolyCache

namespace Protocol

/-! ## Reading a header line in parts -/

theorem readLine_append (data more out : Bytes) : readLine (data ++ more) out =
    match readLine data out with
    | (.needMore, _, out) => readLine more out
    | (status, rest, out) => (status, rest ++ more, out) := by
  fun_induction readLine data out with
  | case1 out => rfl
  | case2 => simp [readLine]
  | case3 c data out hc hlen => rw [List.cons_append, readLine, if_neg hc, if_pos hlen]
  | case4 c data out hc hlen ih =>
    rw [List.cons_append, readLine, if_neg hc, if_neg hlen, ih]

theorem readLine_needMore {data out rest header : Bytes}
    (h : readLine data out = (.needMore, rest, header)) : rest = [] := by
  fun_induction readLine data out <;> grind

theorem readLine_length (data out : Bytes) :
    (readLine data out).2.1.length ≤ data.length := by
  fun_induction readLine data out <;> grind

theorem readLine_ok {data out rest header : Bytes}
    (h : readLine data out = (.ok, rest, header)) : rest.length < data.length := by
  fun_induction readLine data out <;> grind

namespace Parser

variable {alloc : Nat → Bool} {p p' : Parser} {data data' : Bytes}

/-! ## One turn -/

theorem turnPayload_short (h : data.length < p.bulkLen - p.bulkRead) :
    p.turnPayload data = .stop (.needMore { p with
      args := fillBack p.args p.bulkRead data
      bulkRead := p.bulkRead + data.length } []) := by
  have hmin : min (p.bulkLen - p.bulkRead) data.length = data.length := by omega
  have hlt : p.bulkRead + data.length < p.bulkLen := by omega
  simp [turnPayload, hmin, hlt]

theorem turnPayload_filled (h : p.bulkLen - p.bulkRead ≤ data.length) :
    p.turnPayload data = .again { p with
      args := fillBack p.args p.bulkRead (data.take (p.bulkLen - p.bulkRead))
      bulkRead := p.bulkRead + (p.bulkLen - p.bulkRead)
      state := .trailer } (data.drop (p.bulkLen - p.bulkRead)) := by
  have hmin : min (p.bulkLen - p.bulkRead) data.length = p.bulkLen - p.bulkRead := by omega
  have hge : ¬ p.bulkRead + (p.bulkLen - p.bulkRead) < p.bulkLen := by omega
  simp only [turnPayload, hmin, if_neg hge]

/-- What a turn that goes round again has done. -/
inductive Advance (alloc : Nat → Bool) : Parser → Bytes → Parser → Bytes → Prop where
  | array {p : Parser} {data rest header : Bytes} {count : Nat} (state : p.state = .arrayLen)
      (line : readLine data p.header = (.ok, rest, header))
      (parsed : parseHeader 42 header = some count) (limit : count ≤ kMaxArgs) :
      Advance alloc p data { p with
        header := []
        argc := count
        argIndex := 0
        args := []
        state := if count = 0 then .ready else .bulkLen } rest
  | bulk {p : Parser} {data rest header : Bytes} {n : Nat} (state : p.state = .bulkLen)
      (line : readLine data p.header = (.ok, rest, header))
      (parsed : parseHeader 36 header = some n) (limit : n ≤ p.maxBulkLen)
      (granted : alloc n = true) :
      Advance alloc p data { p with
        header := []
        args := p.args ++ [List.replicate n 0]
        bulkLen := n
        bulkRead := 0
        state := if n = 0 then .trailer else .payload } rest
  | filled {p : Parser} {data : Bytes} (state : p.state = .payload)
      (enough : p.bulkLen - p.bulkRead ≤ data.length) :
      Advance alloc p data { p with
        args := fillBack p.args p.bulkRead (data.take (p.bulkLen - p.bulkRead))
        bulkRead := p.bulkRead + (p.bulkLen - p.bulkRead)
        state := .trailer } (data.drop (p.bulkLen - p.bulkRead))
  | cr {p : Parser} {rest : Bytes} (state : p.state = .trailer) :
      Advance alloc p (CR :: rest) { p with state := .trailerLf } rest
  | lf {p : Parser} {rest : Bytes} (state : p.state = .trailer ∨ p.state = .trailerLf) :
      Advance alloc p (LF :: rest) p.nextArg rest

/-- What a turn that returns to the caller has done. -/
inductive Stop : Parser → Bytes → Consumed → Prop where
  | line {p : Parser} {data header : Bytes} (state : p.state = .arrayLen ∨ p.state = .bulkLen)
      (line : readLine data p.header = (.needMore, [], header)) :
      Stop p data (.needMore { p with header := header } [])
  | short {p : Parser} {data : Bytes} (state : p.state = .payload)
      (short : data.length < p.bulkLen - p.bulkRead) :
      Stop p data (.needMore { p with
        args := fillBack p.args p.bulkRead data
        bulkRead := p.bulkRead + data.length } [])
  | trailer {p : Parser} (state : p.state = .trailer ∨ p.state = .trailerLf) :
      Stop p [] (.needMore p [])
  | ready {p : Parser} {data : Bytes} (state : p.state = .ready) :
      Stop p data (.ready (classify p.args) { p with args := [], state := .arrayLen } data)
  | error {p p' : Parser} {data rest : Bytes} (state : p'.state = .failed)
      (taken : rest.length ≤ data.length) : Stop p data (.error p' rest)

/-- All that a turn can do. -/
def Turn.Sound (alloc : Nat → Bool) (p : Parser) (data : Bytes) : Turn → Prop
  | .again p' data' => Advance alloc p data p' data'
  | .stop result => Stop p data result

theorem turn_sound (alloc : Nat → Bool) (p : Parser) (data : Bytes) :
    (p.turn alloc data).Sound alloc p data := by
  cases hstate : p.state <;> simp only [turn, hstate]
  case arrayLen =>
    have hlen := readLine_length data p.header
    rcases hline : readLine data p.header with ⟨_ | _ | _, rest, header⟩
    all_goals simp only [turnArrayLen, hline] at hlen ⊢
    · obtain rfl := readLine_needMore hline
      exact .line (Or.inl hstate) hline
    · cases hparse : parseHeader 42 header with
      | none => exact .error rfl hlen
      | some count =>
        by_cases hcount : kMaxArgs < count
        · simp only [if_pos hcount]
          exact .error rfl hlen
        · simp only [if_neg hcount]
          exact .array hstate hline hparse (by omega)
    · exact .error rfl hlen
  case bulkLen =>
    have hlen := readLine_length data p.header
    rcases hline : readLine data p.header with ⟨_ | _ | _, rest, header⟩
    all_goals simp only [turnBulkLen, hline] at hlen ⊢
    · obtain rfl := readLine_needMore hline
      exact .line (Or.inr hstate) hline
    · cases hparse : parseHeader 36 header with
      | none => exact .error rfl hlen
      | some n =>
        by_cases hmax : p.maxBulkLen < n
        · simp only [if_pos hmax]
          exact .error rfl hlen
        · by_cases hgrant : alloc n = true
          · simp only [if_neg hmax, hgrant, not_true, if_false]
            exact .bulk hstate hline hparse (by omega) hgrant
          · simp only [if_neg hmax, if_pos hgrant]
            exact .error rfl hlen
    · exact .error rfl hlen
  case payload =>
    by_cases hlen : p.bulkLen - p.bulkRead ≤ data.length
    · rw [turnPayload_filled hlen]
      exact .filled hstate hlen
    · rw [turnPayload_short (by omega)]
      exact .short hstate (by omega)
  case trailer =>
    cases data with
    | nil => exact .trailer (Or.inl hstate)
    | cons c rest =>
      by_cases hcr : c = CR
      · subst hcr
        exact .cr hstate
      · by_cases hlf : c = LF
        · subst hlf
          exact .lf (Or.inl hstate)
        · simp only [turnTrailer, if_neg hcr, if_neg hlf]
          exact .error rfl (by simp)
  case trailerLf =>
    cases data with
    | nil => exact .trailer (Or.inr hstate)
    | cons c rest =>
      by_cases hlf : c = LF
      · subst hlf
        exact .lf (Or.inr hstate)
      · simp only [turnTrailerLf, if_neg hlf]
        exact .error rfl (by simp)
  case ready => exact .ready hstate
  case failed => exact .error hstate le_rfl

theorem turn_again (h : p.turn alloc data = .again p' data') : Advance alloc p data p' data' := by
  have hsound := turn_sound alloc p data
  rwa [h] at hsound

theorem turn_stop {result : Consumed} (h : p.turn alloc data = .stop result) :
    Stop p data result := by
  have hsound := turn_sound alloc p data
  rwa [h] at hsound

/-! ## Turns end -/

/-- Two for each byte, and one for a payload that is still being filled. -/
def measure (p : Parser) (data : Bytes) : Nat :=
  2 * data.length + if p.state = .payload then 1 else 0

theorem Advance.measure_lt (h : Advance alloc p data p' data') :
    data'.length ≤ data.length ∧ measure p' data' < measure p data ∧
      (p'.state = .ready → data'.length < data.length) := by
  cases h with
  | array state line =>
    have hlt := readLine_ok line
    grind [measure]
  | bulk state line =>
    have hlt := readLine_ok line
    grind [measure]
  | filled state enough => simp [measure, state]
  | cr state => simp [measure, state]
  | lf state => grind [measure, nextArg]

theorem loop_eq {n m : Nat} (hn : measure p data < n) (hm : measure p data < m) :
    loop alloc n p data = loop alloc m p data := by
  induction n generalizing m p data with
  | zero => omega
  | succ n ih =>
    obtain _ | m := m
    · omega
    · rw [loop, loop]
      cases hturn : p.turn alloc data with
      | stop result => rfl
      | again p' data' =>
        have hlt := (turn_again hturn).measure_lt.2.1
        exact ih (by omega) (by omega)

/-- `consume` is the loop of the source, however many turns it takes. -/
theorem consume_eq (p : Parser) (data : Bytes) : p.consume alloc data =
    match p.turn alloc data with
    | .again p data => p.consume alloc data
    | .stop result => result := by
  have hm : measure p data < 2 * data.length + 2 := by unfold measure; split_ifs <;> omega
  rw [consume, loop]
  cases hturn : p.turn alloc data with
  | stop result => rfl
  | again p' data' =>
    have hlt := (turn_again hturn).measure_lt.2.1
    exact loop_eq (by omega) (by unfold measure; split_ifs <;> omega)

/-- Induction over the turns of a call. -/
theorem consume_induction (alloc : Nat → Bool) {P : Parser → Bytes → Prop}
    (turns : ∀ p data, (∀ p' data', Advance alloc p data p' data' → P p' data') → P p data)
    (p : Parser) (data : Bytes) : P p data := by
  induction hm : measure p data using Nat.strong_induction_on generalizing p data with
  | _ m ih =>
    exact turns p data fun p' data' h => ih _ (hm ▸ h.measure_lt.2.1) p' data' rfl

/-! ## Cut buffers -/

theorem writeAt_writeAt {buffer : Bytes} {offset : Nat} (h : offset ≤ buffer.length)
    (source more : Bytes) :
    writeAt (writeAt buffer offset source) (offset + source.length) more =
      writeAt buffer offset (source ++ more) := by
  have hlen : (buffer.take offset ++ source).length = offset + source.length := by simp; omega
  unfold writeAt
  rw [List.take_append_of_le_length (by omega), List.take_of_length_le (by omega),
    List.drop_append, List.drop_eq_nil_of_le (by omega), List.drop_drop, hlen]
  simp [Nat.add_assoc]

theorem fillBack_fillBack {args : List Bytes} {offset : Nat}
    (h : ∃ buffer, args.getLast? = some buffer ∧ offset ≤ buffer.length) (source more : Bytes) :
    fillBack (fillBack args offset source) (offset + source.length) more =
      fillBack args offset (source ++ more) := by
  obtain ⟨buffer, hlast, hle⟩ := h
  simp [fillBack, hlast, writeAt_writeAt hle]

/-- The payload state has a buffer that reaches as far as has been read. -/
def Buffered (p : Parser) : Prop :=
  p.state = .payload → ∃ buffer, p.args.getLast? = some buffer ∧ p.bulkRead ≤ buffer.length

/-- What the result of a turn on a prefix becomes when `more` follows. -/
def Turn.resume (alloc : Nat → Bool) (more : Bytes) : Turn → Turn
  | .again p data => .again p (data ++ more)
  | .stop (.needMore p _) => p.turn alloc more
  | .stop (.ready command p rest) => .stop (.ready command p (rest ++ more))
  | .stop (.error p rest) => .stop (.error p (rest ++ more))

theorem turn_append (hb : p.Buffered) (data more : Bytes) :
    p.turn alloc (data ++ more) = (p.turn alloc data).resume alloc more := by
  cases hstate : p.state
  case arrayLen =>
    have hline := readLine_append data more p.header
    rcases hread : readLine data p.header with ⟨_ | _ | _, rest, header⟩
    all_goals simp only [hread] at hline
    all_goals simp only [turn, hstate, turnArrayLen, hline, hread]
    · simp [Turn.resume, turn, turnArrayLen]
    · split
      · rfl
      · split_ifs <;> rfl
    · rfl
  case bulkLen =>
    have hline := readLine_append data more p.header
    rcases hread : readLine data p.header with ⟨_ | _ | _, rest, header⟩
    all_goals simp only [hread] at hline
    all_goals simp only [turn, hstate, turnBulkLen, hline, hread]
    · simp [Turn.resume, turn, turnBulkLen]
    · split
      · rfl
      · split_ifs <;> rfl
    · rfl
  case payload =>
    simp only [turn, hstate]
    by_cases hlen : p.bulkLen - p.bulkRead ≤ data.length
    · -- the argument ends in `data`
      rw [turnPayload_filled hlen, turnPayload_filled (by simp; omega),
        List.take_append_of_le_length hlen, List.drop_append_of_le_length hlen]
      rfl
    · -- `data` goes into the argument as a whole
      have hshort : data.length < p.bulkLen - p.bulkRead := Nat.not_le.mp hlen
      rw [turnPayload_short hshort]
      simp only [Turn.resume, turn, hstate]
      by_cases hmore : p.bulkLen - p.bulkRead ≤ (data ++ more).length
      · have hneed : p.bulkLen - p.bulkRead =
            data.length + (p.bulkLen - (p.bulkRead + data.length)) := by omega
        have hrest : p.bulkLen - (p.bulkRead + data.length) ≤ more.length := by
          rw [List.length_append] at hmore
          omega
        rw [turnPayload_filled hmore, turnPayload_filled hrest, hneed, List.take_length_add_append,
          List.drop_length_add_append, fillBack_fillBack (hb hstate), Nat.add_assoc]
      · rw [List.length_append] at hmore
        rw [turnPayload_short (by simp; omega), turnPayload_short (by simp; omega),
          fillBack_fillBack (hb hstate), List.length_append, Nat.add_assoc]
        simp [hstate]
  case trailer =>
    cases data with
    | nil => simp [turn, turnTrailer, hstate, Turn.resume]
    | cons c rest =>
      simp only [turn, turnTrailer, hstate, List.cons_append]
      split_ifs <;> rfl
  case trailerLf =>
    cases data with
    | nil => simp [turn, turnTrailerLf, hstate, Turn.resume]
    | cons c rest =>
      simp only [turn, turnTrailerLf, hstate, List.cons_append]
      split_ifs <;> rfl
  all_goals simp only [turn, hstate, Turn.resume]

theorem length_writeAt {buffer : Bytes} {offset : Nat} (source : Bytes)
    (h : offset ≤ buffer.length) :
    offset + source.length ≤ (writeAt buffer offset source).length := by
  simp [writeAt]
  omega

theorem Advance.buffered (h : Advance alloc p data p' data') : p'.Buffered := by
  intro hstate
  cases h with
  | array state line => grind
  | bulk state line => exact ⟨_, List.getLast?_concat, Nat.zero_le _⟩
  | filled state enough => cases hstate
  | cr state => cases hstate
  | lf state => grind [nextArg]

/-! ## What a call leaves -/

/-- A parser that waits for bytes: no complete command is held back. -/
structure Resting (p : Parser) : Prop where
  buffered : p.Buffered
  notReady : p.state ≠ .ready

theorem resting_of_arrayLen (h : p.state = .arrayLen) : p.Resting :=
  ⟨fun hpayload => by simp [h] at hpayload, by simp [h]⟩

theorem resting_of_failed (h : p.state = .failed) : p.Resting :=
  ⟨fun hpayload => by simp [h] at hpayload, by simp [h]⟩

/-- What holds of the result of a call on `data`. -/
def Consumed.Sound (data : Bytes) : Consumed → Prop
  | .needMore p rest => p.Resting ∧ p.state ≠ .failed ∧ rest = []
  | .ready _ p rest => p.state = .arrayLen ∧ rest.length ≤ data.length
  | .error p rest => p.state = .failed ∧ rest.length ≤ data.length

theorem Stop.sound {result : Consumed} (h : Stop p data result) (hb : p.Buffered) :
    result.Sound data := by
  cases h with
  | line state line => grind [Consumed.Sound, Resting, Buffered]
  | short state short =>
    obtain ⟨buffer, hlast, hle⟩ := hb state
    refine ⟨⟨fun _ => ⟨writeAt buffer p.bulkRead data, ?_, length_writeAt data hle⟩, ?_⟩, ?_, rfl⟩
    · simp [fillBack, hlast]
    · simp [state]
    · simp [state]
  | trailer state => grind [Consumed.Sound, Resting, Buffered]
  | ready state => exact ⟨rfl, le_rfl⟩
  | error state taken => exact ⟨state, taken⟩

theorem Consumed.Sound.mono {result : Consumed} (h : result.Sound data')
    (hlen : data'.length ≤ data.length) : result.Sound data := by
  cases result with
  | needMore p rest => exact h
  | ready command p rest => exact ⟨h.1, h.2.trans hlen⟩
  | error p rest => exact ⟨h.1, h.2.trans hlen⟩

theorem consume_sound (alloc : Nat → Bool) (data : Bytes) (hb : p.Buffered) :
    (p.consume alloc data).Sound data := by
  refine consume_induction alloc
    (P := fun p data => p.Buffered → (p.consume alloc data).Sound data) ?_ p data hb
  intro p data ih hb
  rw [consume_eq]
  cases hturn : p.turn alloc data with
  | stop result => exact (turn_stop hturn).sound hb
  | again p' data' =>
    have hadvance := turn_again hturn
    exact (ih p' data' hadvance hadvance.buffered).mono hadvance.measure_lt.1

/-- A complete command takes at least one byte. -/
theorem consume_ready {command : Command} {rest : Bytes} (hp : p.Resting)
    (h : p.consume alloc data = .ready command p' rest) : rest.length < data.length := by
  refine consume_induction alloc (P := fun p data => p.Resting →
    p.consume alloc data = .ready command p' rest → rest.length < data.length) ?_ p data hp h
  intro p data ih hp h
  rw [consume_eq] at h
  cases hturn : p.turn alloc data with
  | stop result =>
    rw [hturn] at h
    cases h
    cases turn_stop hturn with
    | ready state => exact absurd state hp.notReady
  | again q data' =>
    have hadvance := turn_again hturn
    obtain ⟨hle, -, hlt⟩ := hadvance.measure_lt
    simp only [hturn] at h
    by_cases hready : q.state = .ready
    · have hsound := consume_sound alloc data' hadvance.buffered
      rw [h] at hsound
      have hrest := hsound.2
      have := hlt hready
      omega
    · have := ih q data' hadvance ⟨hadvance.buffered, hready⟩ h
      omega

/-- What the result of a call becomes when `more` follows. -/
def Consumed.resume (alloc : Nat → Bool) (more : Bytes) : Consumed → Consumed
  | .needMore p _ => p.consume alloc more
  | .ready command p rest => .ready command p (rest ++ more)
  | .error p rest => .error p (rest ++ more)

/-- A call does not see where the buffer is cut. -/
theorem consume_append (hb : p.Buffered) (more : Bytes) :
    p.consume alloc (data ++ more) = (p.consume alloc data).resume alloc more := by
  refine consume_induction alloc (P := fun p data => p.Buffered →
    p.consume alloc (data ++ more) = (p.consume alloc data).resume alloc more) ?_ p data hb
  intro p data ih hb
  rw [consume_eq p (data ++ more), consume_eq p data, turn_append hb]
  cases hturn : p.turn alloc data with
  | again p' data' =>
    have hadvance := turn_again hturn
    exact ih p' data' hadvance hadvance.buffered
  | stop result =>
    cases result with
    | needMore p' rest => exact (consume_eq p' more).symm
    | ready command p' rest => rfl
    | error p' rest => rfl

/-! ## The allocator -/

theorem turn_granted (h : ∀ q rest, p.turn alloc data ≠ .stop (.error q rest)) :
    p.turn (fun _ => true) data = p.turn alloc data := by
  cases hstate : p.state
  case bulkLen =>
    rcases hread : readLine data p.header with ⟨_ | _ | _, rest, header⟩
    all_goals simp only [turn, hstate, turnBulkLen, hread] at h ⊢
    cases hparse : parseHeader 36 header with
    | none => rfl
    | some n =>
      by_cases hmax : p.maxBulkLen < n
      · simp only [if_pos hmax]
      · by_cases halloc : alloc n = true
        · simp only [halloc]
        · simp only [hparse, if_neg hmax, if_pos halloc] at h
          exact absurd rfl (h _ _)
  all_goals simp only [turn, hstate]

/-- A call that does not fail is the same with an allocator that serves every length. -/
theorem consume_granted (h : ∀ q rest, p.consume alloc data ≠ .error q rest) :
    p.consume (fun _ => true) data = p.consume alloc data := by
  refine consume_induction alloc (P := fun p data =>
    (∀ q rest, p.consume alloc data ≠ .error q rest) →
      p.consume (fun _ => true) data = p.consume alloc data) ?_ p data h
  intro p data ih h
  rw [consume_eq p data] at h
  have hturn : p.turn (fun _ => true) data = p.turn alloc data :=
    turn_granted fun q rest herror => h q rest (by rw [herror])
  rw [consume_eq p data, consume_eq p data, hturn]
  cases hcase : p.turn alloc data with
  | stop result => rfl
  | again p' data' =>
    rw [hcase] at h
    exact ih p' data' (turn_again hcase) h

/-! ## The caller's loop -/

theorem feedLoop_eq (alloc : Nat → Bool) {n m : Nat} (hp : p.Resting) (hn : data.length < n)
    (hm : data.length < m) :
    feedLoop alloc n p data = feedLoop alloc m p data := by
  induction n generalizing m p data with
  | zero => omega
  | succ n ih =>
    obtain _ | m := m
    · omega
    · rw [feedLoop, feedLoop]
      split_ifs with hdata
      · rfl
      · cases hconsume : p.consume alloc data with
        | needMore p' rest => rfl
        | error p' rest => rfl
        | ready command p' rest =>
          have hlt := consume_ready hp hconsume
          have hsound := consume_sound alloc data hp.buffered
          simp only [hconsume] at hsound
          have hloop := ih (m := m) (resting_of_arrayLen hsound.1)
            (Nat.lt_of_lt_of_le hlt (by omega)) (Nat.lt_of_lt_of_le hlt (by omega))
          simp only [hloop]

@[simp] theorem feed_nil (p : Parser) : p.feed alloc [] = ⟨[], p, []⟩ := rfl

/-- What the loop makes of the result of a call. -/
def Consumed.feed (alloc : Nat → Bool) : Consumed → Fed
  | .needMore p rest | .error p rest => ⟨[], p, rest⟩
  | .ready command p rest =>
    let fed := p.feed alloc rest
    { fed with commands := command :: fed.commands }

theorem feed_eq (hp : p.Resting) (hdata : data ≠ []) :
    p.feed alloc data = (p.consume alloc data).feed alloc := by
  rw [feed, feedLoop, if_neg hdata]
  cases hconsume : p.consume alloc data with
  | needMore p' rest => rfl
  | error p' rest => rfl
  | ready command p' rest =>
    have hlt := consume_ready hp hconsume
    have hsound := consume_sound alloc data hp.buffered
    simp only [hconsume] at hsound
    have hloop := feedLoop_eq alloc (resting_of_arrayLen hsound.1) hlt
      (Nat.lt_succ_self rest.length)
    simp only [Consumed.feed, feed, hloop]

/-- A loop leaves a parser that waits for bytes or has failed. -/
theorem feed_resting (alloc : Nat → Bool) (data : Bytes) (hp : p.Resting) :
    (p.feed alloc data).parser.Resting := by
  induction hn : data.length using Nat.strong_induction_on generalizing p data with
  | _ n ih =>
    by_cases hdata : data = []
    · subst hdata
      exact hp
    · rw [feed_eq hp hdata]
      have hsound := consume_sound alloc data hp.buffered
      cases hconsume : p.consume alloc data with
      | needMore p' rest =>
        rw [hconsume] at hsound
        exact hsound.1
      | error p' rest =>
        rw [hconsume] at hsound
        exact resting_of_failed hsound.1
      | ready command p' rest =>
        rw [hconsume] at hsound
        exact ih rest.length (hn ▸ consume_ready hp hconsume) rest
          (resting_of_arrayLen hsound.1) rfl

/-- What a loop yields, without the bytes it leaves. -/
def Fed.outcome (fed : Fed) : List Command × Parser := (fed.commands, fed.parser)

/-- The commands of a loop, then, unless it has failed, those of the next one. -/
def Fed.andThen (fed : Fed) (next : Parser → Fed) : Fed :=
  if fed.parser.state = .failed then fed
  else { next fed.parser with commands := fed.commands ++ (next fed.parser).commands }

theorem andThen_of_failed {fed : Fed} {next : Parser → Fed} (h : fed.parser.state = .failed) :
    fed.andThen next = fed := if_pos h

theorem feed_append (hp : p.Resting) (more : Bytes) :
    (p.feed alloc (data ++ more)).outcome =
      ((p.feed alloc data).andThen fun q => q.feed alloc more).outcome := by
  induction hn : data.length using Nat.strong_induction_on generalizing p data with
  | _ n ih =>
    by_cases hmore : more = []
    · -- nothing follows
      subst hmore
      rw [List.append_nil, Fed.andThen]
      split_ifs <;> simp [Fed.outcome]
    have hwhole : data ++ more ≠ [] := by simp [hmore]
    rw [feed_eq hp hwhole, consume_append hp.buffered]
    by_cases hdata : data = []
    · -- nothing has been fed
      subst hdata
      rw [← consume_append hp.buffered, List.nil_append, ← feed_eq hp hmore, feed_nil, Fed.andThen]
      split_ifs with hfailed
      · rw [feed_eq hp hmore, consume_eq, turn, hfailed]
        rfl
      · simp
    rw [feed_eq hp hdata]
    have hsound := consume_sound alloc data hp.buffered
    cases hconsume : p.consume alloc data with
    | needMore p' rest =>
      rw [hconsume] at hsound
      simp only [Consumed.resume, Consumed.feed, Fed.andThen, if_neg hsound.2.1,
        feed_eq hsound.1 hmore, List.nil_append]
    | error p' rest =>
      rw [hconsume] at hsound
      have hfailed : ((Consumed.error p' rest).feed alloc).parser.state = .failed := hsound.1
      rw [andThen_of_failed hfailed]
      rfl
    | ready command p' rest =>
      rw [hconsume] at hsound
      have hrest := ih rest.length (hn ▸ consume_ready hp hconsume)
        (resting_of_arrayLen hsound.1) rfl
      simp only [Consumed.resume, Consumed.feed, Fed.andThen, Fed.outcome, Prod.mk.injEq] at hrest ⊢
      split_ifs at hrest ⊢ <;> simp_all

theorem feedAll_eq (alloc : Nat → Bool) (hp : p.Resting) (chunks : List Bytes) :
    (p.feedAll alloc chunks).outcome = (p.feed alloc chunks.flatten).outcome := by
  induction chunks generalizing p with
  | nil => rfl
  | cons chunk chunks ih =>
    rw [List.flatten_cons, feed_append hp, feedAll, Fed.andThen]
    split_ifs with hfailed
    · rfl
    · have hrest := ih (feed_resting alloc chunk hp)
      simp only [Fed.outcome, Prod.mk.injEq] at hrest ⊢
      exact ⟨congrArg _ hrest.1, hrest.2⟩

end Parser

end Protocol

end PolyCache
