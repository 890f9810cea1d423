import PolyCache.Protocol.Invariant

/-!
# The range that a call is given

`consume` takes a pointer and a count by reference and moves both. Here they stand in the buffer
they point into, so that a read outside it has no value. Within the buffer each turn is the turn
on the bytes that the range covers, and the pointer goes forward by what the count loses. A call is
its turns, however many there are.
-/

namespace PolyCache

namespace Protocol

/-- `data`, as an index into the buffer, and `len`. -/
structure Cursor where
  data : Nat
  len : Nat
  deriving DecidableEq, Repr

namespace Cursor

/-- The bytes of the range. -/
def bytes (buffer : Bytes) (c : Cursor) : Bytes := (buffer.drop c.data).take c.len

def Within (buffer : Bytes) (c : Cursor) : Prop := c.data + c.len ≤ buffer.length

/-- `data` has gone forward by what `len` has lost. -/
def Moved (c c' : Cursor) : Prop := c.data ≤ c'.data ∧ c'.data + c'.len = c.data + c.len

/-- The bytes between two places of the pointer. -/
def between (buffer : Bytes) (c c' : Cursor) : Bytes := (buffer.drop c.data).take (c'.data - c.data)

/-- `*data; ++data; --len;` has no value outside the buffer or where `len` would wrap. -/
def next (buffer : Bytes) (c : Cursor) : Option (UInt8 × Cursor) :=
  match buffer[c.data]?, c.len with
  | some b, len + 1 => some (b, ⟨c.data + 1, len⟩)
  | _, _ => none

/-- The `n` bytes that a `memcpy` reads; then `data += n; len -= n;`. -/
def take (buffer : Bytes) (n : Nat) (c : Cursor) : Option (Bytes × Cursor) :=
  if c.data + n ≤ buffer.length ∧ n ≤ c.len then
    some ((buffer.drop c.data).take n, ⟨c.data + n, c.len - n⟩)
  else none

end Cursor

/-- `read_line` on the cursor. -/
def readLineAt (buffer : Bytes) : Nat → Nat → Bytes → Option (LineStatus × Cursor × Bytes)
  | data, 0, out => some (.needMore, ⟨data, 0⟩, out)
  | data, len + 1, out =>
    match buffer[data]? with
    | none => none
    | some c =>
      if c = LF then
        some (.ok, ⟨data + 1, len⟩, if out.getLast? = some CR then out.dropLast else out)
      else if 32 < (out ++ [c]).length then some (.bad, ⟨data + 1, len⟩, out ++ [c])
      else readLineAt buffer (data + 1) len (out ++ [c])

namespace Parser

inductive Status where
  | needMore
  | ready (command : Command)
  | error
  deriving DecidableEq, Repr

structure Returned where
  status : Status
  parser : Parser
  cursor : Cursor
  deriving DecidableEq, Repr

/-- One turn of the loop, on the cursor. -/
inductive TurnAt where
  | again (p : Parser) (c : Cursor)
  | stop (r : Returned)

def failAt (p : Parser) (message : String) (c : Cursor) : TurnAt :=
  .stop ⟨.error, { p with state := .failed, error := ascii message }, c⟩

def arrayLenAt (buffer : Bytes) (p : Parser) (c : Cursor) : Option TurnAt :=
  match readLineAt buffer c.data c.len p.header with
  | none => none
  | some (.needMore, c, header) => some (.stop ⟨.needMore, { p with header := header }, c⟩)
  | some (.bad, c, header) => some ({ p with header := header }.failAt "invalid array header" c)
  | some (.ok, c, header) =>
    let p := { p with header := [] }
    match parseHeader 42 header with
    | none => some (p.failAt "invalid array length" c)
    | some count =>
      if kMaxArgs < count then some (p.failAt "too many arguments" c)
      else some (.again { p with
        argc := count
        argIndex := 0
        args := []
        state := if count = 0 then .ready else .bulkLen } c)

def bulkLenAt (alloc : Nat → Bool) (buffer : Bytes) (p : Parser) (c : Cursor) : Option TurnAt :=
  match readLineAt buffer c.data c.len p.header with
  | none => none
  | some (.needMore, c, header) => some (.stop ⟨.needMore, { p with header := header }, c⟩)
  | some (.bad, c, header) => some ({ p with header := header }.failAt "invalid bulk header" c)
  | some (.ok, c, header) =>
    let p := { p with header := [] }
    match parseHeader 36 header with
    | none => some (p.failAt "invalid bulk length" c)
    | some bulkLen =>
      if p.maxBulkLen < bulkLen then some (p.failAt "bulk length exceeds max-value-size" c)
      else if ¬ alloc bulkLen then some ({ p with args := p.args ++ [[]] }.failAt "out of memory" c)
      else some (.again { p with
        args := p.args ++ [List.replicate bulkLen 0]
        bulkLen := bulkLen
        bulkRead := 0
        state := if bulkLen = 0 then .trailer else .payload } c)

/-- What follows the copy of a payload. -/
def afterCopy (p : Parser) (c : Cursor) : TurnAt :=
  if p.bulkRead < p.bulkLen then .stop ⟨.needMore, p, c⟩ else .again { p with state := .trailer } c

def payloadAt (buffer : Bytes) (p : Parser) (c : Cursor) : Option TurnAt :=
  let take := min (p.bulkLen - p.bulkRead) c.len
  if 0 < take then
    match c.take buffer take with
    | none => none
    | some (source, c) => some (afterCopy { p with
        args := fillBack p.args p.bulkRead source
        bulkRead := p.bulkRead + take } c)
  else some (p.afterCopy c)

def trailerAt (buffer : Bytes) (p : Parser) (c : Cursor) : Option TurnAt :=
  if c.len = 0 then some (.stop ⟨.needMore, p, c⟩)
  else
    match c.next buffer with
    | none => none
    | some (b, c) =>
      if b = CR then some (.again { p with state := .trailerLf } c)
      else if b = LF then some (.again p.nextArg c)
      else some (p.failAt "expected CRLF after bulk payload" c)

def trailerLfAt (buffer : Bytes) (p : Parser) (c : Cursor) : Option TurnAt :=
  if c.len = 0 then some (.stop ⟨.needMore, p, c⟩)
  else
    match c.next buffer with
    | none => none
    | some (b, c) =>
      if b = LF then some (.again p.nextArg c) else some (p.failAt "expected LF after CR" c)

def turnAt (alloc : Nat → Bool) (buffer : Bytes) (p : Parser) (c : Cursor) : Option TurnAt :=
  match p.state with
  | .ready => some (.stop ⟨.ready (classify p.args), { p with args := [], state := .arrayLen }, c⟩)
  | .failed => some (.stop ⟨.error, p, c⟩)
  | .arrayLen => p.arrayLenAt buffer c
  | .bulkLen => p.bulkLenAt alloc buffer c
  | .payload => p.payloadAt buffer c
  | .trailer => p.trailerAt buffer c
  | .trailerLf => p.trailerLfAt buffer c

/-- A call: its turns, up to the one that returns. `alloc data` are the lengths that the allocator
serves while the pointer stands at `data`. -/
inductive Call (alloc : Nat → Nat → Bool) (buffer : Bytes) : Parser → Cursor → Returned → Prop where
  | stop {p : Parser} {c : Cursor} {r : Returned}
      (turn : p.turnAt (alloc c.data) buffer c = some (.stop r)) : Call alloc buffer p c r
  | again {p p' : Parser} {c c' : Cursor} {r : Returned}
      (turn : p.turnAt (alloc c.data) buffer c = some (.again p' c'))
      (later : Call alloc buffer p' c' r) : Call alloc buffer p c r

/-! ## What the range covers -/

end Parser

namespace Cursor

variable {buffer : Bytes} {c c' : Cursor}

theorem Moved.rfl : c.Moved c := ⟨le_rfl, Eq.refl _⟩

theorem Moved.trans {c'' : Cursor} (h : c.Moved c') (h' : c'.Moved c'') : c.Moved c'' :=
  ⟨h.1.trans h'.1, h'.2.trans h.2⟩

/-- The pointer never goes past the end of the range. -/
theorem Moved.within (h : c.Moved c') (hc : c.Within buffer) : c'.Within buffer :=
  h.2.trans_le hc

theorem Moved.between_append_bytes (h : c.Moved c') :
    c.between buffer c' ++ c'.bytes buffer = c.bytes buffer := by
  obtain ⟨hle, hsum⟩ := h
  have hlen : c.len = (c'.data - c.data) + c'.len := by omega
  have hdata : c'.data = c.data + (c'.data - c.data) := by omega
  rw [bytes, bytes, between, hlen, List.take_add, List.drop_drop, ← hdata]

theorem Moved.between_append_between {c'' : Cursor} (h : c.Moved c') (h' : c'.Moved c'') :
    c.between buffer c' ++ c'.between buffer c'' = c.between buffer c'' := by
  have hlen : c''.data - c.data = (c'.data - c.data) + (c''.data - c'.data) := by
    have hle := h.1
    have hle' := h'.1
    omega
  have hdata : c'.data = c.data + (c'.data - c.data) := by
    have hle := h.1
    omega
  rw [between, between, between, hlen, List.take_add, List.drop_drop, ← hdata]

theorem length_bytes (h : c.Within buffer) : (c.bytes buffer).length = c.len := by
  simp only [bytes, List.length_take, List.length_drop]
  simp only [Within] at h
  omega

theorem bytes_of_len_eq_zero (h : c.len = 0) : c.bytes buffer = [] := by
  rw [bytes, h, List.take_zero]

theorem bytes_succ {data len : Nat} (h : (⟨data, len + 1⟩ : Cursor).Within buffer) :
    ∃ b, buffer[data]? = some b ∧
      (⟨data, len + 1⟩ : Cursor).bytes buffer = b :: (⟨data + 1, len⟩ : Cursor).bytes buffer := by
  have hlt : data < buffer.length := by
    simp only [Within] at h
    omega
  refine ⟨buffer[data], List.getElem?_eq_getElem hlt, ?_⟩
  simp only [bytes, List.drop_eq_getElem_cons hlt, List.take_succ_cons]

theorem next_eq (h : c.Within buffer) (hlen : c.len ≠ 0) :
    ∃ b c', c.next buffer = some (b, c') ∧ c.bytes buffer = b :: c'.bytes buffer ∧ c.Moved c' := by
  obtain ⟨data, _ | len⟩ := c
  · exact absurd rfl hlen
  · obtain ⟨b, hget, hbytes⟩ := bytes_succ h
    refine ⟨b, ⟨data + 1, len⟩, by simp only [next, hget], hbytes, ?_⟩
    constructor <;> dsimp only <;> omega

theorem take_eq {n : Nat} (h : c.Within buffer) (hn : n ≤ c.len) :
    ∃ c', c.take buffer n = some ((c.bytes buffer).take n, c') ∧
      c'.bytes buffer = (c.bytes buffer).drop n ∧ c.Moved c' := by
  simp only [Within] at h
  have hfits : c.data + n ≤ buffer.length ∧ n ≤ c.len := by omega
  refine ⟨⟨c.data + n, c.len - n⟩, ?_, ?_, ?_⟩
  · simp only [take, if_pos hfits, bytes, List.take_take, Nat.min_eq_left hn]
  · simp only [bytes, List.drop_take, List.drop_drop]
  · constructor <;> dsimp only <;> omega

end Cursor

open Cursor

/-- Within the buffer `read_line` reads the line of the bytes that the range covers. -/
theorem readLineAt_eq {buffer : Bytes} (len : Nat) {data : Nat} (out : Bytes)
    (h : (⟨data, len⟩ : Cursor).Within buffer) :
    ∃ status c' header, readLineAt buffer data len out = some (status, c', header) ∧
      readLine ((⟨data, len⟩ : Cursor).bytes buffer) out = (status, c'.bytes buffer, header) ∧
      Moved ⟨data, len⟩ c' := by
  induction len generalizing data out with
  | zero =>
    refine ⟨.needMore, ⟨data, 0⟩, out, rfl, ?_, .rfl⟩
    rw [bytes_of_len_eq_zero rfl, readLine]
  | succ len ih =>
    obtain ⟨b, hget, hbytes⟩ := bytes_succ h
    have hmoved : Moved ⟨data, len + 1⟩ ⟨data + 1, len⟩ := by
      constructor <;> dsimp only <;> omega
    simp only [readLineAt, hget, hbytes, readLine]
    by_cases hlf : b = LF
    · simp only [if_pos hlf]
      exact ⟨_, _, _, rfl, rfl, hmoved⟩
    · by_cases hlong : 32 < (out ++ [b]).length
      · simp only [if_neg hlf, if_pos hlong]
        exact ⟨_, _, _, rfl, rfl, hmoved⟩
      · simp only [if_neg hlf, if_neg hlong]
        obtain ⟨status, c', header, hat, hline, hrest⟩ := ih (out ++ [b]) (hmoved.within h)
        exact ⟨status, c', header, hat, hline, hmoved.trans hrest⟩

namespace Parser

/-- What a call has returned, on the bytes that are left. -/
def Returned.view (buffer : Bytes) (r : Returned) : Consumed :=
  match r.status with
  | .needMore => .needMore r.parser (r.cursor.bytes buffer)
  | .ready command => .ready command r.parser (r.cursor.bytes buffer)
  | .error => .error r.parser (r.cursor.bytes buffer)

def TurnAt.view (buffer : Bytes) : TurnAt → Turn
  | .again p c => .again p (c.bytes buffer)
  | .stop r => .stop (r.view buffer)

def TurnAt.cursor : TurnAt → Cursor
  | .again _ c => c
  | .stop r => r.cursor

theorem fillBack_nil (args : List Bytes) (offset : Nat) : fillBack args offset [] = args := by
  cases hlast : args.getLast? with
  | none => simp only [fillBack, hlast]
  | some buffer =>
    simp only [fillBack, hlast, writeAt, List.append_nil, List.length_nil, Nat.add_zero,
      List.take_append_drop]
    exact List.dropLast_append_getLast? buffer hlast

/-- What `turnAt` has to do for `turn`. -/
def Refines (buffer : Bytes) (c : Cursor) (result : Option TurnAt) (turn : Turn) : Prop :=
  ∃ t, result = some t ∧ t.view buffer = turn ∧ c.Moved t.cursor

variable {alloc : Nat → Bool} {buffer : Bytes} {p p' : Parser} {c c' : Cursor}

theorem arrayLenAt_eq (h : c.Within buffer) :
    Refines buffer c (p.arrayLenAt buffer c) (p.turnArrayLen (c.bytes buffer)) := by
  obtain ⟨status, c', header, hat, hline, hmoved⟩ := readLineAt_eq c.len p.header h
  cases status with
  | needMore =>
    simp only [arrayLenAt, hat, turnArrayLen, hline]
    exact ⟨_, rfl, rfl, hmoved⟩
  | bad =>
    simp only [arrayLenAt, hat, turnArrayLen, hline]
    exact ⟨_, rfl, rfl, hmoved⟩
  | ok =>
    simp only [arrayLenAt, hat, turnArrayLen, hline]
    cases parseHeader 42 header with
    | none => exact ⟨_, rfl, rfl, hmoved⟩
    | some count =>
      dsimp only
      split_ifs <;> exact ⟨_, rfl, rfl, hmoved⟩

theorem bulkLenAt_eq (h : c.Within buffer) :
    Refines buffer c (p.bulkLenAt alloc buffer c) (p.turnBulkLen alloc (c.bytes buffer)) := by
  obtain ⟨status, c', header, hat, hline, hmoved⟩ := readLineAt_eq c.len p.header h
  cases status with
  | needMore =>
    simp only [bulkLenAt, hat, turnBulkLen, hline]
    exact ⟨_, rfl, rfl, hmoved⟩
  | bad =>
    simp only [bulkLenAt, hat, turnBulkLen, hline]
    exact ⟨_, rfl, rfl, hmoved⟩
  | ok =>
    simp only [bulkLenAt, hat, turnBulkLen, hline]
    cases parseHeader 36 header with
    | none => exact ⟨_, rfl, rfl, hmoved⟩
    | some bulkLen =>
      dsimp only
      split_ifs <;> exact ⟨_, rfl, rfl, hmoved⟩

theorem payloadAt_eq (h : c.Within buffer) :
    Refines buffer c (p.payloadAt buffer c) (p.turnPayload (c.bytes buffer)) := by
  rw [payloadAt, turnPayload, length_bytes h]
  dsimp only
  by_cases htake : 0 < min (p.bulkLen - p.bulkRead) c.len
  · have hle := Nat.min_le_right (p.bulkLen - p.bulkRead) c.len
    obtain ⟨c', hread, hbytes, hmoved⟩ := take_eq h hle
    simp only [if_pos htake, hread, ← hbytes, afterCopy]
    split_ifs <;> exact ⟨_, rfl, rfl, hmoved⟩
  · -- nothing is copied
    have hzero : min (p.bulkLen - p.bulkRead) c.len = 0 := by omega
    rw [if_neg htake, hzero]
    simp only [List.take_zero, List.drop_zero, fillBack_nil, Nat.add_zero, afterCopy]
    refine ⟨_, rfl, ?_, ?_⟩
    · split_ifs <;> rfl
    · split_ifs <;> exact .rfl

theorem trailerAt_eq (h : c.Within buffer) :
    Refines buffer c (p.trailerAt buffer c) (p.turnTrailer (c.bytes buffer)) := by
  by_cases hlen : c.len = 0
  · have hnil : c.bytes buffer = [] := bytes_of_len_eq_zero hlen
    rw [trailerAt, if_pos hlen, hnil]
    refine ⟨_, rfl, ?_, .rfl⟩
    simp only [TurnAt.view, Returned.view, turnTrailer, hnil]
  · obtain ⟨b, c', hnext, hbytes, hmoved⟩ := next_eq h hlen
    simp only [trailerAt, if_neg hlen, hnext, hbytes, turnTrailer]
    split_ifs <;> exact ⟨_, rfl, rfl, hmoved⟩

theorem trailerLfAt_eq (h : c.Within buffer) :
    Refines buffer c (p.trailerLfAt buffer c) (p.turnTrailerLf (c.bytes buffer)) := by
  by_cases hlen : c.len = 0
  · have hnil : c.bytes buffer = [] := bytes_of_len_eq_zero hlen
    rw [trailerLfAt, if_pos hlen, hnil]
    refine ⟨_, rfl, ?_, .rfl⟩
    simp only [TurnAt.view, Returned.view, turnTrailerLf, hnil]
  · obtain ⟨b, c', hnext, hbytes, hmoved⟩ := next_eq h hlen
    simp only [trailerLfAt, if_neg hlen, hnext, hbytes, turnTrailerLf]
    split_ifs <;> exact ⟨_, rfl, rfl, hmoved⟩

/-- Within the buffer no turn reads outside it, and it does what `turn` does on the bytes of the
range. -/
theorem turnAt_eq (alloc : Nat → Bool) (p : Parser) (h : c.Within buffer) :
    Refines buffer c (p.turnAt alloc buffer c) (p.turn alloc (c.bytes buffer)) := by
  cases hstate : p.state <;> simp only [turnAt, turn, hstate]
  case arrayLen => exact arrayLenAt_eq h
  case bulkLen => exact bulkLenAt_eq h
  case payload => exact payloadAt_eq h
  case trailer => exact trailerAt_eq h
  case trailerLf => exact trailerLfAt_eq h
  case ready => exact ⟨_, rfl, rfl, .rfl⟩
  case failed => exact ⟨_, rfl, rfl, .rfl⟩

theorem turnAt_some (h : c.Within buffer) {t : TurnAt} (ht : p.turnAt alloc buffer c = some t) :
    p.turn alloc (c.bytes buffer) = t.view buffer ∧ c.Moved t.cursor := by
  obtain ⟨t', hat, hview, hmoved⟩ := turnAt_eq alloc p h
  obtain rfl : t' = t := Option.some.inj (hat.symm.trans ht)
  exact ⟨hview.symm, hmoved⟩

theorem turnAt_again (h : c.Within buffer) (ht : p.turnAt alloc buffer c = some (.again p' c')) :
    Advance alloc p (c.bytes buffer) p' (c'.bytes buffer) ∧ c.Moved c' := by
  obtain ⟨hview, hmoved⟩ := turnAt_some h ht
  exact ⟨turn_again hview, hmoved⟩

theorem turnAt_stop {r : Returned} (h : c.Within buffer)
    (ht : p.turnAt alloc buffer c = some (.stop r)) :
    Stop p (c.bytes buffer) (r.view buffer) ∧ c.Moved r.cursor := by
  obtain ⟨hview, hmoved⟩ := turnAt_some h ht
  exact ⟨turn_stop hview, hmoved⟩

/-! ## Calls -/

theorem Stop.of_needMore {data rest : Bytes} (h : Stop p data (.needMore p' rest)) :
    rest = [] ∧ p'.state ≠ .ready ∧ p'.state ≠ .failed := by
  cases h with
  | line state line => grind
  | short state short => simp [state]
  | trailer state => grind

theorem Stop.of_ready {data rest : Bytes} {command : Command}
    (h : Stop p data (.ready command p' rest)) : p.state = .ready ∧ p'.state = .arrayLen := by
  cases h with
  | ready state => exact ⟨state, rfl⟩

theorem Stop.of_error {data rest : Bytes} (h : Stop p data (.error p' rest)) :
    p'.state = .failed := by
  cases h with
  | error state taken => exact state

variable {allocs : Nat → Nat → Bool} {r r' : Returned}

/-- A call returns, whatever the allocator does. -/
theorem exists_call (allocs : Nat → Nat → Bool) (p : Parser) (h : c.Within buffer) :
    ∃ r, Call allocs buffer p c r := by
  induction hm : measure p (c.bytes buffer) using Nat.strong_induction_on generalizing p c with
  | _ m ih =>
    obtain ⟨t, hat, -⟩ := turnAt_eq (allocs c.data) p h
    cases t with
    | stop r => exact ⟨r, .stop hat⟩
    | again p' c' =>
      obtain ⟨hadvance, hmoved⟩ := turnAt_again h hat
      obtain ⟨r, hcall⟩ := ih _ (hm ▸ hadvance.measure_lt.2.1) p' (hmoved.within h) rfl
      exact ⟨r, .again hat hcall⟩

theorem Call.unique (h : Call allocs buffer p c r) (h' : Call allocs buffer p c r') : r' = r := by
  induction h with
  | stop turn =>
    cases h' with
    | stop turn' => simpa [turn] using turn'.symm
    | again turn' => exact absurd (turn.symm.trans turn') (by simp)
  | again turn later ih =>
    cases h' with
    | stop turn' => exact absurd (turn.symm.trans turn') (by simp)
    | again turn' later' =>
      have hsame := turn.symm.trans turn'
      simp only [Option.some.injEq, TurnAt.again.injEq] at hsame
      obtain ⟨rfl, rfl⟩ := hsame
      exact ih later'

/-- `NeedMore` leaves nothing of the range. -/
theorem Call.needMore (h : Call allocs buffer p c r) (hc : c.Within buffer)
    (hr : r.status = .needMore) : r.cursor.len = 0 := by
  induction h with
  | @stop p c r turn =>
    obtain ⟨hstop, hmoved⟩ := turnAt_stop hc turn
    simp only [Returned.view, hr] at hstop
    rw [← length_bytes (hmoved.within hc), hstop.of_needMore.1, List.length_nil]
  | again turn later ih => exact ih ((turnAt_again hc turn).2.within hc) hr

theorem Call.moved (h : Call allocs buffer p c r) (hc : c.Within buffer) : c.Moved r.cursor := by
  induction h with
  | stop turn => exact (turnAt_stop hc turn).2
  | again turn later ih =>
    have hmoved := (turnAt_again hc turn).2
    exact hmoved.trans (ih (hmoved.within hc))

/-- `Ready` has taken a byte, except in a parser that was left with a complete command. -/
theorem Call.ready (h : Call allocs buffer p c r) (hc : c.Within buffer) (hp : p.state ≠ .ready)
    {command : Command} (hr : r.status = .ready command) : c.data < r.cursor.data := by
  induction h with
  | stop turn =>
    have hstop := (turnAt_stop hc turn).1
    simp only [Returned.view, hr] at hstop
    exact absurd hstop.of_ready.1 hp
  | @again p p' c c' r turn later ih =>
    obtain ⟨hadvance, hmoved⟩ := turnAt_again hc turn
    have hc' := hmoved.within hc
    by_cases hready : p'.state = .ready
    · -- the command was completed by the turn before the last
      have hlt := hadvance.measure_lt.2.2 hready
      rw [length_bytes hc, length_bytes hc'] at hlt
      have hlater := later.moved hc'
      simp only [Moved] at hmoved hlater
      omega
    · exact Nat.lt_of_le_of_lt hmoved.1 (ih hc' hready hr)

/-- A call leaves no complete command behind, and it fails only with `Error`. -/
theorem Call.state (h : Call allocs buffer p c r) (hc : c.Within buffer) :
    r.parser.state ≠ .ready ∧ (r.parser.state = .failed ↔ r.status = .error) := by
  induction h with
  | @stop p c r turn =>
    have hstop := (turnAt_stop hc turn).1
    cases hstatus : r.status <;> simp only [Returned.view, hstatus] at hstop
    case needMore => simpa using hstop.of_needMore.2
    case ready => simp [hstop.of_ready.2]
    case error => simp [hstop.of_error]
  | again turn later ih => exact ih ((turnAt_again hc turn).2.within hc)

/-- With an allocator that stays the same a call is `consume` on the bytes of the range. -/
theorem Call.consume_eq (h : Call (fun _ => alloc) buffer p c r) (hc : c.Within buffer) :
    p.consume alloc (c.bytes buffer) = r.view buffer := by
  induction h with
  | stop turn => rw [Parser.consume_eq, (turnAt_some hc turn).1, TurnAt.view]
  | again turn later ih =>
    obtain ⟨hview, hmoved⟩ := turnAt_some hc turn
    rw [Parser.consume_eq, hview, TurnAt.view]
    exact ih (hmoved.within hc)

/-- Between two calls no complete command is held back. -/
theorem not_ready_of_reaches {maxBulkLen : Nat} {h : List CallEvent} {taken : Bytes}
    (hr : (callSystem maxBulkLen).Reaches h ⟨p, none, taken⟩) : p.state ≠ .ready := by
  refine hr.stateInvariant (P := fun s => s.left = none → s.parser.state ≠ .ready) ?_ ?_ rfl
  · rintro s rfl -
    simp [init]
  · rintro s e t - hstep hleft
    cases hstep with
    | call => cases hleft
    | turn => cases hleft
    | @ret _ _ _ result alloc stop =>
      have hstop := turn_stop stop
      cases result with
      | needMore => exact hstop.of_needMore.2.1
      | ready => simp [Consumed.parser, hstop.of_ready.2]
      | error => simp [Consumed.parser, hstop.of_error]

/-- A call on the cursor is a call in the runs of the parser, and it takes the bytes between the
two places of the pointer. -/
theorem Call.reaches (hcall : Call allocs buffer p c r) (hc : c.Within buffer) {maxBulkLen : Nat}
    {h : List CallEvent} {taken : Bytes}
    (hr : (callSystem maxBulkLen).Reaches h ⟨p, some (c.bytes buffer), taken⟩) :
    ∃ h', (callSystem maxBulkLen).Reaches h'
      ⟨r.parser, none, taken ++ c.between buffer r.cursor⟩ := by
  induction hcall generalizing h taken with
  | @stop p c r turn =>
    obtain ⟨hview, hmoved⟩ := turnAt_some hc turn
    have hrest : (r.view buffer).rest = r.cursor.bytes buffer := by
      cases hstatus : r.status <;> simp [Returned.view, hstatus, Consumed.rest]
    have hparser : (r.view buffer).parser = r.parser := by
      cases hstatus : r.status <;> simp [Returned.view, hstatus, Consumed.parser]
    have hfront : c.between buffer r.cursor ++ (r.view buffer).rest = c.bytes buffer := by
      rw [hrest]
      exact hmoved.between_append_bytes
    rw [← hfront] at hr hview
    exact ⟨_, hparser ▸ hr.next (.ret _ hview)⟩
  | @again p p' c c' r turn later ih =>
    have hview := (turnAt_some hc turn).1
    have hmoved : c.Moved c' := (turnAt_some hc turn).2
    have hc' := hmoved.within hc
    rw [← hmoved.between_append_bytes] at hr hview
    obtain ⟨h', hr'⟩ := ih hc' (hr.next (.turn _ hview))
    rw [List.append_assoc, hmoved.between_append_between (later.moved hc')] at hr'
    exact ⟨h', hr'⟩

end Parser

end Protocol

end PolyCache
