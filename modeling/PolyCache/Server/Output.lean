import PolyCache.Protocol.Consume
import PolyCache.Server.Connection

/-!
# What a client receives

While a client is open, the bytes that `send` has taken and the rest of its outbox are together the
replies to its commands. A client that is closed has received a prefix of them, unless its parser
failed: the error line goes around the outbox, so it may stand where the rest of a reply was due.
-/

namespace PolyCache

open Protocol

namespace Server

variable (cfg : Config) (alloc : Nat → Bool) (commands : Nat → Surroundings) {c : Client} {r : Run}

/-! ## Chunks -/

namespace OutChunk

variable {chunk : OutChunk}

theorem head_sent (h : chunk.part ≠ .head) : chunk.head.drop chunk.headSent = [] := by
  rw [List.drop_eq_nil_iff]
  unfold part at h
  grind

theorem blob_sent (h : chunk.part = .tail ∨ chunk.part = .done) :
    (chunk.blob.getD []).drop chunk.blobSent = [] := by
  rw [List.drop_eq_nil_iff]
  unfold part at h
  cases hblob : chunk.blob <;> grind

theorem tail_sent (h : chunk.part = .done) : chunk.tail.drop chunk.tailSent = [] := by
  rw [List.drop_eq_nil_iff]
  unfold part at h
  grind

theorem rest_of_done (h : chunk.part = .done) : chunk.rest = [] := by
  simp [rest, head_sent, blob_sent, tail_sent, h]

/-- What `send` takes and what is then left are together what was left. -/
theorem take_offered (chunk : OutChunk) (sent : Nat) :
    chunk.offered.take sent ++ (chunk.advance sent).rest = chunk.rest := by
  have htake : ∀ (bytes : Bytes) (before : Nat),
      (bytes.drop before).take sent ++ bytes.drop (before + sent) = bytes.drop before := by
    intro bytes before
    rw [← List.drop_drop, List.take_append_drop]
  cases hpart : chunk.part with
  | head => simp only [offered, advance, rest, hpart, ← List.append_assoc, htake]
  | blob =>
    have hhead : chunk.head.drop chunk.headSent = [] := head_sent (by simp [hpart])
    simp only [offered, advance, rest, hpart, hhead, List.nil_append, ← List.append_assoc, htake]
  | tail =>
    have hhead : chunk.head.drop chunk.headSent = [] := head_sent (by simp [hpart])
    have hblob := blob_sent (Or.inl hpart)
    simp only [offered, advance, rest, hpart, hhead, hblob, List.nil_append, htake]
  | done => simp only [offered, advance, hpart, List.take_nil, List.nil_append]

end OutChunk

@[simp] theorem unsent_nil : unsent [] = [] := rfl

@[simp] theorem unsent_cons (chunk : OutChunk) (queue : List OutChunk) :
    unsent (chunk :: queue) = chunk.rest ++ unsent queue := rfl

@[simp] theorem unsent_append (queue more : List OutChunk) :
    unsent (queue ++ more) = unsent queue ++ unsent more := List.flatMap_append

/-- Popping what is done loses nothing. -/
theorem unsent_dropWhile (queue : List OutChunk) :
    unsent (queue.dropWhile fun c => c.part = .done) = unsent queue := by
  induction queue with
  | nil => rfl
  | cons chunk queue ih =>
    by_cases hdone : chunk.part = .done
    · simp [hdone, OutChunk.rest_of_done hdone, ih]
    · simp [hdone]

/-- Sending moves bytes from the queue to the socket, and neither loses nor reorders any. -/
theorem sendLoop_written (sends : List SendResult) (queue : List OutChunk) (written : Bytes) :
    (sendLoop sends queue written).written ++ unsent (sendLoop sends queue written).queue =
      written ++ unsent queue := by
  fun_induction sendLoop sends queue written with
  | case1 queue written => rw [unsent_dropWhile]
  | case2 result sends queue written hqueue => rw [← unsent_dropWhile queue, hqueue]
  | case3 sends queue written chunk queue' hqueue => rw [← unsent_dropWhile queue, hqueue]
  | case4 sends queue written chunk queue' hqueue => rw [← unsent_dropWhile queue, hqueue]
  | case5 sends queue written chunk queue' hqueue n hn sent ih =>
    rw [ih, ← unsent_dropWhile queue, hqueue, unsent_cons, unsent_cons, List.append_assoc,
      ← List.append_assoc _ _ (unsent queue'), OutChunk.take_offered]
  | case6 sends queue written chunk queue' hqueue => rw [← unsent_dropWhile queue, hqueue]
  | case7 sends queue written chunk queue' hqueue ih => rw [ih, ← unsent_dropWhile queue, hqueue]

/-! ## What has been written -/

/-- The bytes of an error line that `send` took. -/
def Failure.sent (f : Failure) : Bytes := f.line.take f.taken

namespace Client

/-- The line that ends the stream, if the parser has failed. -/
def errorLine (c : Client) : Bytes := c.failure.elim [] Failure.line

/-- All that the client is promised. -/
def stream (c : Client) : Bytes := c.replies.flatten ++ c.errorLine

/-- An open client: nothing of its replies is lost. -/
structure Live (c : Client) : Prop where
  parser : ∃ p, c.parser = some p ∧ p.Resting
  isOpen : c.isOpen = true
  failure : c.failure = none
  balance : c.written ++ unsent (c.outbox.getD []) = c.replies.flatten

/-- A closed client: it was sent its replies up to some byte, and then what was taken of the
error line. -/
structure Ended (c : Client) : Prop where
  parser : c.parser = none
  isOpen : c.isOpen = false
  outbox : c.outbox = none
  balance : ∃ before due, before ++ due = c.replies.flatten ∧
    c.written = before ++ c.failure.elim [] Failure.sent ∧ ∀ f ∈ c.failure, f.unsent = due

inductive Sound (c : Client) : Prop where
  | live (h : c.Live)
  | ended (h : c.Ended)

theorem Sound.live_of_hasParser (h : c.Sound) (hparser : c.parser.isSome = true) : c.Live := by
  cases h with
  | live h => exact h
  | ended h => simp [h.parser] at hparser

theorem Sound.live_of_hasOutbox (h : c.Sound) (houtbox : c.outbox.isSome = true) : c.Live := by
  cases h with
  | live h => exact h
  | ended h => simp [h.outbox] at houtbox

theorem Live.resting (h : c.Live) {p : Parser} (hp : c.parser = some p) : p.Resting := by
  obtain ⟨q, hq, hresting⟩ := h.parser
  rw [hp] at hq
  cases hq
  exact hresting

theorem Live.setParser (h : c.Live) {p : Parser} (hp : p.Resting) :
    Live { c with parser := some p } :=
  ⟨⟨p, rfl, hp⟩, h.isOpen, h.failure, h.balance⟩

end Client

open Client

theorem Client.Live.close (h : c.Live) : (closeClient c).Ended :=
  ⟨rfl, rfl, rfl, c.written, _, h.balance, by simp [closeClient, h.failure],
    by simp [closeClient, h.failure]⟩

/-- Closing a client again changes nothing. -/
theorem Client.Ended.close (h : c.Ended) : (closeClient c).Ended := ⟨rfl, rfl, rfl, h.balance⟩

theorem Client.Sound.close (h : c.Sound) : (closeClient c).Ended := by
  cases h with
  | live h => exact h.close
  | ended h => exact h.close

theorem Client.Live.updateWatch (h : c.Live) : (updateWatch c).Live := by
  simp only [Server.updateWatch]
  split_ifs
  · exact h
  · exact ⟨h.parser, h.isOpen, h.failure, h.balance⟩

theorem sound_trySend (h : c.Sound) (sends : List SendResult) : (trySend c sends).1.Sound := by
  unfold trySend
  cases hqueue : c.outbox with
  | none => exact h
  | some queue =>
    have h : c.Live := h.live_of_hasOutbox (by simp [hqueue])
    have hbalance := h.balance
    have hwritten := sendLoop_written sends queue c.written
    have hlive : Live { c with
        outbox := if (sendLoop sends queue c.written).queue = [] then none
          else some (sendLoop sends queue c.written).queue
        written := (sendLoop sends queue c.written).written } := by
      refine ⟨h.parser, h.isOpen, h.failure, ?_⟩
      have hget : (if (sendLoop sends queue c.written).queue = [] then none
          else some (sendLoop sends queue c.written).queue).getD [] =
          (sendLoop sends queue c.written).queue := by
        split <;> simp_all
      simp only [hget, hwritten]
      rwa [hqueue] at hbalance
    dsimp only
    split
    · exact .ended hlive.close
    · exact .live hlive.updateWatch

theorem sound_queueResponse (h : c.Live) (response : Response) (sends : List SendResult) :
    (queueResponse c response sends).1.Sound := by
  have hlive : Live { c with
      outbox := some (c.outbox.getD [] ++
        [⟨response.complete.head, 0, response.complete.blob, 0, response.complete.tail, 0⟩])
      replies := c.replies ++ [response.complete.bytes] } := by
    refine ⟨h.parser, h.isOpen, h.failure, ?_⟩
    simp [← h.balance, OutChunk.rest, Response.bytes]
  simp only [queueResponse]
  split
  · exact .ended hlive.close
  · exact sound_trySend (.live hlive) sends

/-- A parser that fails: the outbox is dropped, and the error line is sent around it. -/
theorem ended_sendError (h : c.Live) (line : Bytes) (sends : List SendResult) :
    (closeClient (sendError c line sends).1).Ended :=
  ⟨rfl, rfl, rfl, c.written, _, h.balance, rfl, by simp [closeClient, sendError]⟩

theorem sound_runCommand (h : r.client.Live) (cmd : Command) :
    (runCommand cfg commands r cmd).client.Sound := by
  simp only [runCommand]
  split
  · exact .live h
  · exact sound_queueResponse h _ _

/-- After a command the rest of the buffer is shorter, and the client is as it should be. -/
theorem sound_of_ready (h : r.client.Live) {parser parser' : Parser} {data rest : Bytes}
    {cmd : Command} (hparser : r.client.parser = some parser)
    (hconsume : parser.consume alloc data = .ready cmd parser' rest) :
    rest.length < data.length ∧
      (runCommand cfg commands { r with client.parser := some parser' } cmd).client.Sound := by
  have hresting := h.resting hparser
  have hsound := Parser.consume_sound alloc data hresting.buffered
  rw [hconsume] at hsound
  have hlive : Live { r.client with parser := some parser' } :=
    h.setParser (Parser.resting_of_arrayLen hsound.1)
  exact ⟨Parser.consume_ready hresting hconsume,
    sound_runCommand cfg commands (r := { r with client.parser := some parser' }) hlive cmd⟩

theorem sound_takeBuffer (rounds : Nat) (data : Bytes) (h : r.client.Sound) :
    (takeBuffer cfg alloc commands rounds r data).1.client.Sound := by
  induction rounds generalizing r data with
  | zero => exact h
  | succ rounds ih =>
    rw [takeBuffer]
    split_ifs with hdata
    · exact h
    · cases hparser : r.client.parser with
      | none => exact h
      | some parser =>
        have hlive := h.live_of_hasParser (by simp [hparser])
        have hsound := Parser.consume_sound alloc data (hlive.resting hparser).buffered
        dsimp only
        cases hconsume : parser.consume alloc data with
        | needMore parser rest =>
          rw [hconsume] at hsound
          exact .live (hlive.setParser hsound.1)
        | error parser rest =>
          rw [hconsume] at hsound
          exact .ended (ended_sendError (hlive.setParser (Parser.resting_of_failed hsound.1)) _ _)
        | ready cmd parser' rest =>
          have hrun := (sound_of_ready cfg alloc commands hlive hparser hconsume).2
          dsimp only
          split_ifs
          · exact hrun
          · exact ih rest hrun

/-- The rounds are enough for the loop to end by itself. -/
theorem takeBuffer_eq {n m : Nat} {data : Bytes} (h : r.client.Sound) (hn : data.length < n)
    (hm : data.length < m) :
    takeBuffer cfg alloc commands n r data = takeBuffer cfg alloc commands m r data := by
  induction n generalizing m r data with
  | zero => omega
  | succ n ih =>
    obtain _ | m := m
    · omega
    · rw [takeBuffer, takeBuffer]
      split_ifs with hdata
      · rfl
      · cases hparser : r.client.parser with
        | none => rfl
        | some parser =>
          have hlive := h.live_of_hasParser (by simp [hparser])
          dsimp only
          cases hconsume : parser.consume alloc data with
          | needMore parser rest => rfl
          | error parser rest => rfl
          | ready cmd parser' rest =>
            obtain ⟨hlt, hrun⟩ := sound_of_ready cfg alloc commands hlive hparser hconsume
            dsimp only
            split_ifs
            · rfl
            · exact ih hrun (by omega) (by omega)

theorem sound_handleReadable (recvs : List RecvResult) (h : r.client.Sound) :
    (handleReadable cfg alloc commands recvs r).client.Sound := by
  fun_induction handleReadable cfg alloc commands recvs r with
  | case1 r => exact h
  | case2 r => exact h
  | case3 r recvs ih => exact ih h
  | case4 r => exact .ended h.close
  | case5 r => exact .ended h.close
  | case6 c bytes recvs r hnone => exact h
  | case7 c bytes recvs r hnone r' hbuffer =>
    have hsound := sound_takeBuffer cfg alloc commands ((c :: bytes).length + 1) (c :: bytes) h
    rwa [hbuffer] at hsound
  | case8 c bytes recvs r hnone r' hbuffer ih =>
    have hsound := sound_takeBuffer cfg alloc commands ((c :: bytes).length + 1) (c :: bytes) h
    rw [hbuffer] at hsound
    exact ih hsound

theorem sound_handleEvent (flags : Flags) (recvs : List RecvResult) (h : r.client.Sound) :
    (handleEvent cfg alloc commands flags recvs r).client.Sound := by
  by_cases hhangup : flags.hangup ∧ ¬ flags.readable
  · rw [handleEvent, if_pos hhangup]
    exact .ended h.close
  · rw [handleEvent, if_neg hhangup]
    have hread : (if flags.readable then handleReadable cfg alloc commands recvs r
        else r).client.Sound := by
      split_ifs
      · exact sound_handleReadable cfg alloc commands recvs h
      · exact h
    generalize (if flags.readable then handleReadable cfg alloc commands recvs r else r) = r' at *
    have hsent := sound_trySend hread r'.sends
    dsimp only
    split_ifs
    · exact hread
    · exact .ended hsent.close
    · exact hsent
    · exact .ended hread.close
    · exact hread

/-! ## The event loop -/

theorem live_acceptClient (s : Storage) (h : c.Sound) (hclosed : c.isOpen = false) :
    (acceptClient cfg s c).Live := by
  have hended : c.Ended := by
    cases h with
    | live h => simp [h.isOpen] at hclosed
    | ended h => exact h
  refine ⟨⟨_, rfl, ?_⟩, rfl, rfl, ?_⟩
  · rw [hended.parser]
    exact Parser.resting_of_arrayLen rfl
  · simp [acceptClient, hended.outbox]

variable {cfg} {events : List LoopEvent} {l l' : Loop} {e : LoopEvent}

/-- An event leaves every client but its own as it is. -/
theorem sound_step (h : ∀ fd, (l.clients fd).Sound) (hs : Loop.Step cfg l e l') :
    ∀ fd, (l'.clients fd).Sound := by
  intro fd'
  cases hs with
  | @accept fd closed =>
    by_cases hfd : fd' = fd
    · subst hfd
      simpa [Loop.accept] using Sound.live (live_acceptClient cfg l.storage (h fd') closed)
    · simpa [Loop.accept, hfd] using h fd'
  | @ready fd flags script isOpen =>
    by_cases hfd : fd' = fd
    · subst hfd
      simpa [Loop.handle] using
        sound_handleEvent cfg script.alloc script.commands flags script.recvs (h fd')
    · simpa [Loop.handle, hfd] using h fd'

theorem sound_of_reaches (hr : (loopSystem cfg).Reaches events l) (fd : Nat) :
    (l.clients fd).Sound := by
  refine hr.stateInvariant (P := fun l => ∀ fd, (l.clients fd).Sound) ?_
    (fun _ _ _ h hs => sound_step h hs) fd
  intro l hl fd
  rw [hl fd]
  exact .ended ⟨rfl, rfl, rfl, [], [], rfl, rfl, by simp⟩

/-- A client has received a prefix of what it is promised unless its parser failed and the bytes
that `send` took of the error line are not the ones that were due. -/
theorem Client.Sound.written_prefix_iff (h : c.Sound) :
    c.written <+: c.stream ↔ ∀ f ∈ c.failure, f.sent <+: f.unsent ++ f.line := by
  cases h with
  | live h => simp [stream, ← h.balance, errorLine, h.failure]
  | ended h =>
    obtain ⟨before, due, hstream, hwritten, hdue⟩ := h.balance
    cases hfailure : c.failure with
    | none => simp [stream, ← hstream, hwritten, hfailure]
    | some f =>
      have hunsent : f.unsent = due := hdue f (by simp [hfailure])
      simp [stream, errorLine, ← hstream, hwritten, hfailure, hunsent, List.append_assoc,
        List.prefix_append_right_inj]

/-- In every run, what a client has received is a prefix of its replies and the error line, if no
parser fails while replies are unsent and `send` takes bytes of the error line. -/
theorem written_prefix_of_reaches (hr : (loopSystem cfg).Reaches events l) (fd : Nat)
    (hclean : ∀ f ∈ (l.clients fd).failure, f.unsent = [] ∨ f.taken = 0) :
    (l.clients fd).written <+: (l.clients fd).stream := by
  rw [(sound_of_reaches hr fd).written_prefix_iff]
  intro f hf
  obtain hunsent | htaken := hclean f hf
  · rw [hunsent]
    exact List.take_prefix _ _
  · rw [Failure.sent, htaken]
    exact List.nil_prefix

/-- A client sends `PING` and, in the same segment, a frame that the parser refuses. -/
def pingThenBad (sends : List SendResult) : Script where
  recvs := [.data (ascii "*1\r\n$4\r\nPING\r\n*x\r\n")]
  sends := sends
  commands _ := { env := ⟨0, 1, 0⟩ }
  alloc _ := true

/-- The event loop after that client's first event. -/
def refused (sends : List SendResult) : Loop :=
  let cfg : Config := ⟨false, 8, fun _ => []⟩
  (Loop.accept cfg ⟨fun _ => {}, Storage.init 1 1024 8⟩ 7).handle cfg 7 ⟨true, false, false⟩
    (pingThenBad sends)

theorem reaches_refused (sends : List SendResult) :
    (loopSystem ⟨false, 8, fun _ => []⟩).Reaches
      [.ready 7 ⟨true, false, false⟩ (pingThenBad sends), .accept 7] (refused sends) :=
  .next (.next (.start fun _ => rfl) (.accept rfl)) (.ready rfl)

theorem written_prefix_refused :
    ((refused [.sent 7, .sent 9]).clients 7).written <+:
      ((refused [.sent 7, .sent 9]).clients 7).stream :=
  written_prefix_of_reaches (reaches_refused _) 7 (by decide)

/-- With two bytes of the reply sent, the error line goes into the middle of it. -/
theorem not_written_prefix_refused :
    let client := (refused [.sent 2, .again, .sent 100]).clients 7
    (loopSystem ⟨false, 8, fun _ => []⟩).Reaches
        [.ready 7 ⟨true, false, false⟩ (pingThenBad [.sent 2, .again, .sent 100]), .accept 7]
        (refused [.sent 2, .again, .sent 100]) ∧
      client.written = ascii "+P-ERR Protocol error: invalid array length\r\n" ∧
      ¬ client.written <+: client.stream :=
  ⟨reaches_refused _, by decide, by decide⟩

end Server

end PolyCache
