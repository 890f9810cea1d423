import PolyCache.Protocol.Cursor
import PolyCache.Server.Session

/-!
# Reading a received buffer

The loop of `handle_readable` over the cursor that `consume` moves, for as many rounds as it takes.
It ends on every buffer, and as long as a client has its parser, the parser has taken all that was
received, in order.
-/

namespace PolyCache

namespace Server

open Protocol Protocol.Parser

/-- How the loop over a buffer ends. -/
structure LoopEnd where
  run : Run
  cursor : Cursor
  /-- `handle_readable` returns -/
  returned : Bool

section

variable (cfg : Config) (commands : Nat → Surroundings) (allocs : Nat → Nat → Bool)
  (buffer : Bytes)

/-- `while (left > 0)` -/
inductive BufferLoop : Run → Cursor → LoopEnd → Prop where
  | done {r : Run} {c : Cursor} (left : c.len = 0) : BufferLoop r c ⟨r, c, false⟩
  | needMore {r : Run} {c c' : Cursor} {p p' : Parser} (left : 0 < c.len)
      (parser : r.client.parser = some p) (call : Call allocs buffer p c ⟨.needMore, p', c'⟩) :
      BufferLoop r c ⟨{ r with client.parser := some p' }, c', false⟩
  | error {r : Run} {c c' : Cursor} {p p' : Parser} {client : Client} {sends : List SendResult}
      (left : 0 < c.len) (parser : r.client.parser = some p)
      (call : Call allocs buffer p c ⟨.error, p', c'⟩)
      (line : sendError { r.client with parser := some p' } (protocolError p'.error) r.sends =
        (client, sends)) :
      BufferLoop r c ⟨{ r with client := closeClient client, sends := sends }, c', true⟩
  | ready {r r' : Run} {c c' : Cursor} {p p' : Parser} {command : Command} {e : LoopEnd}
      (left : 0 < c.len) (parser : r.client.parser = some p)
      (call : Call allocs buffer p c ⟨.ready command, p', c'⟩)
      (run : runCommand cfg commands { r with client.parser := some p' } command = r')
      (stays : r'.client.parser.isSome) (later : BufferLoop r' c' e) : BufferLoop r c e
  | closed {r r' : Run} {c c' : Cursor} {p p' : Parser} {command : Command}
      (left : 0 < c.len) (parser : r.client.parser = some p)
      (call : Call allocs buffer p c ⟨.ready command, p', c'⟩)
      (run : runCommand cfg commands { r with client.parser := some p' } command = r')
      (gone : r'.client.parser = none) : BufferLoop r c ⟨r', c', true⟩

end

variable {cfg : Config} {commands : Nat → Surroundings} {allocs : Nat → Nat → Bool}
  {buffer : Bytes} {r : Run} {c : Cursor} {p : Parser}

/-- The loop ends: `NeedMore` and `Error` leave it, and every `Ready` has taken a byte. -/
theorem exists_bufferLoop (cfg : Config) (commands : Nat → Surroundings)
    (allocs : Nat → Nat → Bool) (hc : c.Within buffer) (hparser : r.client.parser = some p)
    (hp : p.state ≠ .ready) : ∃ e, BufferLoop cfg commands allocs buffer r c e := by
  induction hn : c.len using Nat.strong_induction_on generalizing r c p with
  | _ n ih =>
    by_cases hleft : c.len = 0
    · exact ⟨_, .done hleft⟩
    have hpos : 0 < c.len := Nat.pos_of_ne_zero hleft
    obtain ⟨⟨status, p', c'⟩, hcall⟩ := exists_call allocs p hc
    cases status with
    | needMore => exact ⟨_, .needMore hpos hparser hcall⟩
    | error => exact ⟨_, .error hpos hparser hcall rfl⟩
    | ready command =>
      generalize hrun : runCommand cfg commands { r with client.parser := some p' } command = r'
      cases hgone : r'.client.parser with
      | none => exact ⟨_, .closed hpos hparser hcall hrun hgone⟩
      | some q =>
        obtain rfl : q = p' := parser_runCommand command rfl (by rw [hrun, hgone])
        have hmoved := hcall.moved hc
        have hlt := hcall.ready hc hp rfl
        have hstate := (hcall.state hc).1
        have hless : c'.len < n := by
          have hsum := hmoved.2
          dsimp only at hsum hlt
          omega
        obtain ⟨e, hloop⟩ := ih _ hless (hmoved.within hc) hgone hstate rfl
        exact ⟨e, .ready hpos hparser hcall hrun (by simp [hgone]) hloop⟩

theorem BufferLoop.unique {e e' : LoopEnd} (h : BufferLoop cfg commands allocs buffer r c e)
    (h' : BufferLoop cfg commands allocs buffer r c e') : e' = e := by
  induction h with
  | done left => cases h' <;> first | rfl | omega
  | needMore left parser call => cases h' <;> grind [Call.unique]
  | error left parser call line => cases h' <;> grind [Call.unique]
  | ready left parser call run stays later ih => cases h' <;> grind [Call.unique]
  | closed left parser call run gone => cases h' <;> grind [Call.unique]

/-- A loop that leaves the client its parser has taken the whole buffer. -/
theorem BufferLoop.takes {e : LoopEnd} (h : BufferLoop cfg commands allocs buffer r c e)
    (hc : c.Within buffer) (hparser : r.client.parser = some p) {maxBulkLen : Nat}
    {calls : List CallEvent} {taken : Bytes}
    (hr : (callSystem maxBulkLen).Reaches calls ⟨p, none, taken⟩) :
    c.Moved e.cursor ∧ ∀ q, e.run.client.parser = some q → e.cursor.len = 0 ∧
      ∃ calls', (callSystem maxBulkLen).Reaches calls'
        ⟨q, none, taken ++ c.between buffer e.cursor⟩ := by
  induction h generalizing p calls taken with
  | done left =>
    refine ⟨.rfl, fun q hq => ⟨left, calls, ?_⟩⟩
    obtain rfl : p = q := Option.some.inj (hparser.symm.trans hq)
    simpa [Cursor.between] using hr
  | @needMore r c c' p₀ p' left parser call =>
    obtain rfl : p₀ = p := Option.some.inj (parser.symm.trans hparser)
    refine ⟨call.moved hc, fun q hq => ⟨call.needMore hc rfl, ?_⟩⟩
    obtain rfl : p' = q := Option.some.inj hq
    exact call.reaches hc (hr.next (.call _))
  | error left parser call line =>
    obtain rfl := Option.some.inj (parser.symm.trans hparser)
    refine ⟨call.moved hc, ?_⟩
    intro q hq
    cases hq
  | @ready r r' c c' p₀ p' command e left parser call run stays later ih =>
    obtain rfl : p₀ = p := Option.some.inj (parser.symm.trans hparser)
    have hmoved : c.Moved c' := call.moved hc
    obtain ⟨q, hq⟩ := Option.isSome_iff_exists.mp stays
    obtain rfl : q = p' := parser_runCommand command rfl (by rw [run, hq])
    obtain ⟨calls', hcalls⟩ := call.reaches hc (hr.next (.call _))
    obtain ⟨hrest, hend⟩ := ih (hmoved.within hc) hq hcalls
    refine ⟨hmoved.trans hrest, ?_⟩
    intro q hq
    obtain ⟨hleft, calls'', hcalls'⟩ := hend q hq
    rw [List.append_assoc, hmoved.between_append_between hrest] at hcalls'
    exact ⟨hleft, calls'', hcalls'⟩
  | closed left parser call run gone =>
    obtain rfl := Option.some.inj (parser.symm.trans hparser)
    refine ⟨call.moved hc, ?_⟩
    intro q hq
    cases gone.symm.trans hq

theorem bytes_ne_nil (hc : c.Within buffer) (hleft : 0 < c.len) : c.bytes buffer ≠ [] := by
  rw [← List.length_pos_iff, Cursor.length_bytes hc]
  exact hleft

/-- With an allocator that stays the same the loop is `takeBuffer`, which needs no more rounds than
it has. -/
theorem BufferLoop.takeBuffer_eq {alloc : Nat → Bool} {e : LoopEnd}
    (h : BufferLoop cfg commands (fun _ => alloc) buffer r c e) (hc : c.Within buffer)
    (hp : ∀ p, r.client.parser = some p → p.state ≠ .ready) {rounds : Nat} (hle : c.len ≤ rounds) :
    takeBuffer cfg alloc commands (rounds + 1) r (c.bytes buffer) = (e.run, e.returned) := by
  induction h generalizing rounds with
  | done left =>
    rw [takeBuffer, if_pos (Cursor.bytes_of_len_eq_zero left)]
  | needMore left parser call =>
    rw [takeBuffer, if_neg (bytes_ne_nil hc left), parser]
    simp only [call.consume_eq hc, Returned.view]
  | error left parser call line =>
    rw [takeBuffer, if_neg (bytes_ne_nil hc left), parser]
    simp only [call.consume_eq hc, Returned.view, line]
  | @ready r r' c c' p p' command e left parser call run stays later ih =>
    have hmoved : c.Moved c' := call.moved hc
    have hgain : c.data < c'.data := call.ready hc (hp p parser) rfl
    obtain ⟨rounds, rfl⟩ := Nat.exists_eq_succ_of_ne_zero (show rounds ≠ 0 by omega)
    have hless : c'.len ≤ rounds := by
      have hsum := hmoved.2
      omega
    have hstays : ¬ r'.client.parser.isNone := by
      simpa [Option.isSome_iff_ne_none] using stays
    have hp' : ∀ q, r'.client.parser = some q → q.state ≠ .ready := by
      intro q hq
      obtain rfl : q = p' := parser_runCommand command rfl (by rw [run, hq])
      exact (call.state hc).1
    rw [takeBuffer, if_neg (bytes_ne_nil hc left), parser]
    simp only [call.consume_eq hc, Returned.view, run, if_neg hstays]
    exact ih (hmoved.within hc) hp' hless
  | closed left parser call run gone =>
    rw [takeBuffer, if_neg (bytes_ne_nil hc left), parser]
    simp only [call.consume_eq hc, Returned.view, run, gone, Option.isNone_none, if_true]

/-! ## The bytes of a client -/

/-- The parser of a client, what it was sent and what its parser has taken. -/
structure Reading where
  parser : Option Parser
  received : Bytes
  taken : Bytes

inductive ReadEvent where
  | receive (buffer : Bytes)
  | close

/-- The range of a received buffer. -/
def wholeOf (buffer : Bytes) : Cursor := ⟨0, buffer.length⟩

/-- Whatever else has happened to the client and the store, a buffer is read by its parser; and a
client may be closed at any time. -/
inductive Reading.Step (cfg : Config) : Reading → ReadEvent → Reading → Prop where
  | receive {s : Reading} {p : Parser} {r : Run} {e : LoopEnd} (commands : Nat → Surroundings)
      (allocs : Nat → Nat → Bool) (buffer : Bytes) (here : s.parser = some p)
      (parser : r.client.parser = some p)
      (loop : BufferLoop cfg commands allocs buffer r (wholeOf buffer) e) :
      Step cfg s (.receive buffer) ⟨e.run.client.parser, s.received ++ buffer,
        s.taken ++ (wholeOf buffer).between buffer e.cursor⟩
  | close {s : Reading} : Step cfg s .close { s with parser := none }

def readSystem (cfg : Config) (maxBulkLen : Nat) : Transition.System Reading ReadEvent where
  init s := s = ⟨some (Parser.init maxBulkLen), [], []⟩
  step := Reading.Step cfg

/-- What the runs keep. -/
structure Reading.Kept (maxBulkLen : Nat) (s : Reading) : Prop where
  inOrder : s.taken <+: s.received
  all : ∀ p, s.parser = some p → s.taken = s.received
  calls : ∀ p, s.parser = some p → ∃ h, (callSystem maxBulkLen).Reaches h ⟨p, none, s.taken⟩

theorem within_wholeOf (buffer : Bytes) : (wholeOf buffer).Within buffer := by
  simp [Cursor.Within, wholeOf]

theorem bytes_wholeOf (buffer : Bytes) : (wholeOf buffer).bytes buffer = buffer := by
  simp [Cursor.bytes, wholeOf]

theorem Reading.Kept.step {maxBulkLen : Nat} {s t : Reading} {e : ReadEvent}
    (hk : Kept maxBulkLen s) (hstep : s.Step cfg e t) : Kept maxBulkLen t := by
  cases hstep with
  | @receive p r e commands allocs buffer here parser loop =>
    obtain ⟨calls, hcalls⟩ := hk.calls p here
    obtain ⟨hmoved, hend⟩ := loop.takes (within_wholeOf buffer) parser hcalls
    have hbytes : (wholeOf buffer).between buffer e.cursor ++ e.cursor.bytes buffer = buffer :=
      hmoved.between_append_bytes.trans (bytes_wholeOf buffer)
    refine ⟨?_, ?_, fun q hq => (hend q hq).2⟩
    · dsimp only
      rw [hk.all p here, List.prefix_append_right_inj]
      exact ⟨_, hbytes⟩
    · intro q hq
      rw [Cursor.bytes_of_len_eq_zero (hend q hq).1, List.append_nil] at hbytes
      dsimp only
      rw [hbytes, hk.all p here]
  | close => exact ⟨hk.inOrder, by simp, by simp⟩

theorem Reading.kept_of_reaches {maxBulkLen : Nat} {h : List ReadEvent} {s : Reading}
    (hr : (readSystem cfg maxBulkLen).Reaches h s) : Reading.Kept maxBulkLen s := by
  refine hr.stateInvariant ?_ fun _ _ _ hk hstep => hk.step hstep
  rintro s rfl
  exact ⟨List.prefix_rfl, fun _ _ => rfl, fun p hp => Option.some.inj hp ▸ ⟨[], .start rfl⟩⟩

/-- In every reachable state of the parser a call returns, whatever range it is given: after
`NeedMore` nothing of the range is left, after `Ready` the pointer has gone forward. In no turn is
a byte read outside the range, and the pointer goes forward by what the count loses. So the loop
over a received buffer ends, and as long as a client has its parser, that has taken all that was
received, in order; after an error it has taken what came first. -/
theorem consume_progress (cfg : Config) (maxBulkLen : Nat) :
    (∀ calls p taken, (callSystem maxBulkLen).Reaches calls ⟨p, none, taken⟩ →
      ∀ allocs buffer (c : Cursor), c.Within buffer →
        ∃ returned, Call allocs buffer p c returned ∧
          (∀ returned', Call allocs buffer p c returned' → returned' = returned) ∧
          c.Moved returned.cursor ∧ (returned.status = .needMore → returned.cursor.len = 0) ∧
          ∀ command, returned.status = .ready command → c.data < returned.cursor.data) ∧
    (∀ alloc buffer (c : Cursor) (p : Parser), c.Within buffer →
      ∃ t, p.turnAt alloc buffer c = some t ∧ c.Moved t.cursor) ∧
    ∀ events s, (readSystem cfg maxBulkLen).Reaches events s → s.taken <+: s.received ∧
      ∀ p, s.parser = some p → s.taken = s.received ∧
        ∀ r commands allocs buffer, r.client.parser = some p →
          ∃ e, BufferLoop cfg commands allocs buffer r (wholeOf buffer) e ∧
            ∀ e', BufferLoop cfg commands allocs buffer r (wholeOf buffer) e' → e' = e := by
  refine ⟨?_, ?_, ?_⟩
  · intro calls p taken hr allocs buffer c hc
    obtain ⟨returned, hcall⟩ := exists_call allocs p hc
    exact ⟨returned, hcall, fun _ => hcall.unique, hcall.moved hc, hcall.needMore hc,
      fun command => hcall.ready hc (not_ready_of_reaches hr)⟩
  · intro alloc buffer c p hc
    obtain ⟨t, hat, -, hmoved⟩ := turnAt_eq alloc p hc
    exact ⟨t, hat, hmoved⟩
  · intro events s hs
    have hk := Reading.kept_of_reaches hs
    refine ⟨hk.inOrder, ?_⟩
    intro p hp
    refine ⟨hk.all p hp, ?_⟩
    intro r commands allocs buffer hparser
    obtain ⟨calls, hcalls⟩ := hk.calls p hp
    obtain ⟨e, hloop⟩ := exists_bufferLoop cfg commands allocs (within_wholeOf buffer) hparser
      (not_ready_of_reaches hcalls)
    exact ⟨e, hloop, fun _ => hloop.unique⟩

end Server

end PolyCache
