import Mathlib.Data.Prod.Lex
import Mathlib.Logic.Relation
import PolyCache.Bench.Conversation
import PolyCache.Library.Progress
import PolyCache.Server.Causes
import PolyCache.Server.Tables

/-!
# Batches

The benchmark gives a batch of requests to `sendall` and reads no reply before that returns. The
kernel holds a bounded number of bytes each way, so that the client waits for the server to receive,
and the server for the client to read. They do not wait for each other: what the server cannot send
stays in its outbox, and it goes on to receive. The outbox has room for the replies of a batch.
-/

namespace PolyCache

open Protocol Resp Server Relation

namespace Bench

structure Pipeline where
  loop : Loop
  /-- of all batches so far -/
  requests : List (List Bytes) := []
  /-- what `sendall` has not passed to the kernel -/
  toSend : Bytes := []
  /-- what the kernel holds for the server -/
  up : Bytes := []
  /-- and for the client -/
  down : Bytes := []
  /-- what `recv` has returned -/
  got : Bytes := []

namespace Pipeline

variable (cfg : Config) (fd room : Nat) (start : Loop)

/-- The first `n` replies have come. -/
def HasRead (p : Pipeline) (n : Nat) : Prop :=
  ∃ replies : List Bytes, replies.length = n ∧ (∀ r ∈ replies, IsReply r) ∧
    replies.flatten <+: p.got

/-- What the client does: the next batch when it has read the replies to all before, and a part of
`sendall` or of the reading that follows it. -/
inductive Turn : Pipeline → Pipeline → Prop where
  | batch {p : Pipeline} (requests : List (List Bytes)) (sent : p.toSend = [])
      (read : p.HasRead p.requests.length) (few : requests.length ≤ kMaxQueuedChunks)
      (valid : ∀ args ∈ requests, Valid cfg (parseLimit cfg start.storage) args) :
      Turn p { p with requests := p.requests ++ requests, toSend := requests.flatMap encode }
  | send {p : Pipeline} (n : Nat) :
      Turn p { p with toSend := p.toSend.drop n, up := p.up ++ p.toSend.take n }
  | read {p : Pipeline} (n : Nat) (sent : p.toSend = []) :
      Turn p { p with down := p.down.drop n, got := p.got ++ p.down.take n }

inductive Actor where
  | client | server | other
  deriving DecidableEq, Repr

/-- Neither the connection nor the memory fails. While the server is in an event of the client, the
client goes on: in which order their calls come is not told, so that it may read all that is
written in the event, and what it sends may be received. -/
inductive Step : Pipeline → Actor → Pipeline → Prop where
  | client {p q : Pipeline} (turn : Turn cfg start p q) (space : q.up.length ≤ room) :
      Step p .client q
  | serve {p q : Pipeline} {flags : Flags} {script : Script} {sent up : Bytes}
      (isOpen : (p.loop.clients fd).isOpen = true) (hangup : flags.hangup = false)
      (recvs : Readable script.recvs) (sends : .failed ∉ script.sends ∧ .sent 0 ∉ script.sends)
      (memory : ∀ n, script.alloc n = true)
      (watched : flags.writable = true → (p.loop.clients fd).interest = some true)
      (written : ((p.loop.handle cfg fd flags script).clients fd).written =
        (p.loop.clients fd).written ++ sent)
      (turns : ReflTransGen (Turn cfg start) { p with down := p.down ++ sent } q)
      (received : q.up = comes flags script ++ up)
      (space : up.length ≤ room ∧ q.down.length ≤ room) :
      Step p .server { q with loop := p.loop.handle cfg fd flags script, up := up }
  | other {p : Pipeline} {e : LoopEvent} {loop : Loop} (step : Loop.Step cfg p.loop e loop)
      (others : ∀ flags script, e ≠ .ready fd flags script) : Step p .other { p with loop := loop }

/-- From the event in which the client is accepted. -/
def system : Transition.System Pipeline Actor where
  init p := p = { loop := start.accept cfg fd }
  step := Step cfg fd room start

/-- A byte has been sent, received, written or read. -/
def Moves (p q : Pipeline) : Prop :=
  q.toSend.length < p.toSend.length ∨
    q.toSend.length + q.up.length < p.toSend.length + p.up.length ∨
    (p.loop.clients fd).written.length < (q.loop.clients fd).written.length ∨
    p.got.length < q.got.length

variable {cfg fd room start} {p q : Pipeline} {n m : Nat} {requests : List (List Bytes)}
  {data : Bytes}

theorem HasRead.mono (h : p.HasRead n) (hle : m ≤ n) : p.HasRead m := by
  obtain ⟨replies, rfl, hreplies, hgot⟩ := h
  refine ⟨replies.take m, by simpa using hle, ?_, ?_⟩
  · exact fun r hr => hreplies r (List.mem_of_mem_take hr)
  · exact (List.take_prefix m replies).flatten.trans hgot

theorem HasRead.grow (h : p.HasRead n) (hgot : p.got <+: q.got) : q.HasRead n := by
  obtain ⟨replies, hlength, hreplies, hpre⟩ := h
  exact ⟨replies, hlength, hreplies, hpre.trans hgot⟩

/-! ## The client -/

/-- What comes of turns of the client. If there was a batch among them, the replies to the requests
before had all been read. -/
structure Turned (cfg : Config) (start : Loop) (p q : Pipeline) (more : List (List Bytes)) :
    Prop where
  loop : q.loop = p.loop
  requests : q.requests = p.requests ++ more
  valid : ∀ args ∈ more, Valid cfg (parseLimit cfg start.storage) args
  sent : q.up ++ q.toSend = p.up ++ p.toSend ++ more.flatMap encode
  received : q.got ++ q.down = p.got ++ p.down
  got : p.got <+: q.got
  window : more = [] ∧ q.toSend.length ≤ p.toSend.length ∨
    ∃ n, p.requests.length ≤ n ∧ q.requests.length ≤ n + kMaxQueuedChunks ∧ q.HasRead n

theorem turned_of_turns (h : ReflTransGen (Turn cfg start) p q) :
    ∃ more, Turned cfg start p q more := by
  induction h with
  | refl => exact ⟨[], rfl, by simp, by simp, by simp, rfl, List.prefix_rfl, .inl ⟨rfl, le_rfl⟩⟩
  | @tail b q _ hturn ih =>
    obtain ⟨more, h⟩ := ih
    cases hturn with
    | batch requests sent read few valid =>
      have hrequests : b.requests.length = p.requests.length + more.length := by
        rw [h.requests, List.length_append]
      refine ⟨more ++ requests, h.loop, by simp [h.requests], ?_, ?_, h.received, h.got, ?_⟩
      · intro args hargs
        exact (List.mem_append.mp hargs).elim (h.valid args) (valid args)
      · have hsent := h.sent
        rw [sent, List.append_nil] at hsent
        simp [hsent]
      · refine .inr ⟨b.requests.length, by omega, ?_, read⟩
        rw [List.length_append]
        omega
    | send n =>
      refine ⟨more, h.loop, h.requests, h.valid, ?_, h.received, h.got, ?_⟩
      · simpa using h.sent
      · obtain ⟨hmore, hle⟩ | hread := h.window
        · refine .inl ⟨hmore, ?_⟩
          rw [List.length_drop]
          omega
        · exact .inr hread
    | read n sent =>
      have hgot : b.got <+: b.got ++ b.down.take n := List.prefix_append _ _
      refine ⟨more, h.loop, h.requests, h.valid, h.sent, ?_, h.got.trans hgot, ?_⟩
      · simpa using h.received
      · obtain hsame | ⟨n, hle, hfew, hread⟩ := h.window
        · exact .inl hsame
        · exact .inr ⟨n, hle, hfew, hread.grow hgot⟩

theorem Turned.valid_append {more : List (List Bytes)} (h : Turned cfg start p q more)
    (hp : ∀ args ∈ p.requests, Valid cfg (parseLimit cfg start.storage) args) :
    ∀ args ∈ q.requests, Valid cfg (parseLimit cfg start.storage) args := by
  rw [h.requests]
  intro args hargs
  exact (List.mem_append.mp hargs).elim (hp args) (h.valid args)

theorem Turned.window_keeps {more : List (List Bytes)} (h : Turned cfg start p q more)
    (hp : ∃ n, p.requests.length ≤ n + kMaxQueuedChunks ∧ p.HasRead n) :
    ∃ n, q.requests.length ≤ n + kMaxQueuedChunks ∧ q.HasRead n := by
  obtain ⟨n, hfew, hread⟩ := hp
  obtain ⟨rfl, -⟩ | ⟨n, -, hfew, hread⟩ := h.window
  · refine ⟨n, ?_, hread.grow h.got⟩
    rwa [h.requests, List.append_nil]
  · exact ⟨n, hfew, hread⟩

/-! ## What the server is asked -/

/-- The parser takes any part of the requests: it finds the first of them, and does not fail. -/
theorem asked_part {limit : Nat} (hvalid : ∀ args ∈ requests, Valid cfg limit args)
    (hdata : data <+: requests.flatMap encode) :
    asked (Parser.init limit) data <+: requests.map classify ∧
      ((Parser.init limit).feed (fun _ => true) data).parser.state ≠ .failed := by
  obtain ⟨rest, hrest⟩ := hdata
  obtain ⟨p, hfresh, hwhole⟩ := takes_encode hvalid
  rw [← hrest] at hwhole
  have hresting := (Parser.fresh_init limit).resting
  constructor
  · rw [← hwhole.1]
    change _ <+: asked (Parser.init limit) (data ++ rest)
    rw [asked_append hresting]
    exact List.prefix_append _ _
  · intro hfailed
    have hstuck := (takes_asked (Parser.init limit) data).append hresting
      (takes_of_failed hfailed rest)
    obtain rfl : _ = p := hstuck.2.symm.trans hwhole.2
    rw [hfresh.state] at hfailed
    cases hfailed

/-- The run of the loop since the client was accepted, and where the bytes of both streams are. -/
structure Connected (cfg : Config) (fd room : Nat) (start : Loop) (later : List LoopEvent)
    (p : Pipeline) : Prop where
  run : ((loopSystem cfg).startAt (start.accept cfg fd)).Reaches later p.loop
  once : LoopEvent.accept fd ∉ later
  isOpen : (p.loop.clients fd).isOpen = true
  valid : ∀ args ∈ p.requests, Valid cfg (parseLimit cfg start.storage) args
  sent : receivedFrom fd later ++ p.up ++ p.toSend = p.requests.flatMap encode
  received : (p.loop.clients fd).written = p.got ++ p.down
  window : ∃ n, p.requests.length ≤ n + kMaxQueuedChunks ∧ p.HasRead n
  space : p.up.length ≤ room ∧ p.down.length ≤ room

section

variable {earlier later : List LoopEvent} (hstart : (loopSystem cfg).Reaches earlier start)
  (hclosed : (start.clients fd).isOpen = false)

include hstart hclosed

theorem Connected.reaches (hc : Connected cfg fd room start later p) :
    (loopSystem cfg).Reaches (later ++ .accept fd :: earlier) p.loop :=
  (hstart.next (.accept hclosed)).append_startAt hc.run

/-- The client has been asked for what it has received, and has been served all of it. -/
theorem Connected.served (hc : Connected cfg fd room start later p) :
    ∃ parser trace, (p.loop.clients fd).parser = some parser ∧
      Served cfg start.storage trace p.loop.storage ∧
      (p.loop.clients fd).replies = (ofClient fd trace).map (fun x => x.response.frame) ∧
      Takes (Parser.init (parseLimit cfg start.storage)) (receivedFrom fd later)
        ((ofClient fd trace).map Exchange.command) parser := by
  have hnone : (start.clients fd).parser = none := by
    cases sound_of_reaches hstart fd with
    | live h => simp [h.isOpen] at hclosed
    | ended h => exact h.parser
  have hinit : ((start.accept cfg fd).clients fd).parser =
      some (Parser.init (parseLimit cfg start.storage)) := by
    simp [Loop.accept, acceptClient, hnone]
  obtain ⟨hreplies, htakes⟩ := conversed_of_reaches
    (hstart.next (.accept hclosed)) (by simp [Loop.accept, acceptClient]) hc.run hc.once
  have hlive := (sound_of_reaches (hc.reaches hstart hclosed) fd).live_of_isOpen hc.isOpen
  obtain ⟨parser, hparser, -⟩ := hlive.parser
  obtain ⟨p₀, hp₀, htakes⟩ := htakes parser hparser
  obtain rfl := Option.some.inj (hinit.symm.trans hp₀)
  exact ⟨parser, (start.accept cfg fd).trace cfg later, hparser, served_trace hc.run, hreplies,
    htakes⟩

/-- An event that receives a part of the requests leaves no more replies than there are requests,
and each of them is one. -/
theorem Connected.replies (hc : Connected cfg fd room start later p) {flags : Flags}
    {script : Script} (hvalid : ∀ args ∈ requests, Valid cfg (parseLimit cfg start.storage) args)
    (hsent : receivedFrom fd later ++ comes flags script <+: requests.flatMap encode) :
    let client := (p.loop.handle cfg fd flags script).clients fd
    client.replies.length ≤ requests.length ∧ ∀ r ∈ client.replies, IsReply r := by
  obtain ⟨parser, trace, hparser, hserved, hreplies, hcommands, hleft⟩ :=
    hc.served hstart hclosed
  have hlive := (sound_of_reaches (hc.reaches hstart hclosed) fd).live_of_isOpen hc.isOpen
  have hcommands' : p.loop.executed cfg fd flags script <+: asked parser (comes flags script) :=
    executedEvent_prefix (r := ⟨p.loop.clients fd, p.loop.storage, script.sends, 0⟩) cfg
      script.alloc script.commands flags script.recvs hlive hparser
  let trace' := p.loop.exchanges cfg fd flags script
  have hall : ofClient fd (trace ++ trace') = ofClient fd trace ++ trace' := by
    rw [ofClient_append, ofClient_eq_self fd_of_exchanges]
  have hasked : (ofClient fd (trace ++ trace')).map Exchange.command <+:
      requests.map classify := by
    refine List.IsPrefix.trans ?_ (asked_part hvalid hsent).1
    rw [hall, List.map_append, asked_append (Parser.fresh_init _).resting, hleft, ← hcommands,
      commands_exchanges]
    exact (List.prefix_append_right_inj _).mpr hcommands'
  have hsame : ((p.loop.handle cfg fd flags script).clients fd).replies =
      (ofClient fd (trace ++ trace')).map fun x => x.response.frame := by
    rw [hall, List.map_append, ← hreplies, replies_handle]
  dsimp only
  rw [hsame]
  constructor
  · simpa using hasked.length_le
  · intro reply hmem
    obtain ⟨x, hx, rfl⟩ := List.mem_map.mp hmem
    exact isReply_of_served (hserved.append served_exchanges) hasked
      (fun args hargs => (hvalid args hargs).safe) x hx

/-- An event that receives a part of the requests leaves the client open if all but 1024 replies
have been read. -/
theorem Connected.isOpen_handle (hc : Connected cfg fd room start later p) {flags : Flags}
    {script : Script} (hvalid : ∀ args ∈ q.requests, Valid cfg (parseLimit cfg start.storage) args)
    (hsent : receivedFrom fd later ++ comes flags script <+: q.requests.flatMap encode)
    (hhangup : flags.hangup = false) (hrecvs : Readable script.recvs)
    (hsends : .failed ∉ script.sends ∧ .sent 0 ∉ script.sends)
    (hmemory : ∀ n, script.alloc n = true)
    (hgot : q.got <+: ((p.loop.handle cfg fd flags script).clients fd).written)
    (hwindow : ∃ n, q.requests.length ≤ n + kMaxQueuedChunks ∧ q.HasRead n) :
    ((p.loop.handle cfg fd flags script).clients fd).isOpen = true := by
  by_contra hopen
  obtain ⟨parser, trace, hparser, -, -, -, hleft⟩ := hc.served hstart hclosed
  obtain ⟨hcount, hreplies⟩ := hc.replies hstart hclosed hvalid hsent
  obtain hhang | ⟨data, hdata, hcause⟩ := cause_of_closed flags script
    (hc.reaches hstart hclosed) hc.isOpen hparser (by simpa using hopen)
  · rw [hhangup] at hhang
    cases hhang
  · cases hcause with
    | broken h => exact h hrecvs
    | send h => exact h.elim hsends.1 hsends.2
    | memory n h =>
      rw [hmemory n] at h
      cases h
    | refused h =>
      have hpre : receivedFrom fd later ++ data <+: q.requests.flatMap encode :=
        ((List.prefix_append_right_inj _).mpr hdata).trans hsent
      apply (asked_part hvalid hpre).2
      rw [parser_feed_append (Parser.fresh_init _).resting, hleft]
      exact h
    | waiting h =>
      obtain ⟨n, hfew, read, rfl, hread, hpre⟩ := hwindow
      have hwritten := hpre.trans hgot
      have hdone := prefix_of_flatten hread hreplies (hwritten.trans h.prefix_flatten)
      have hlt := h.lt_length hdone hwritten
      omega

theorem Connected.serve (hc : Connected cfg fd room start later p) {flags : Flags}
    {script : Script} {sent up : Bytes} {more : List (List Bytes)} (hhangup : flags.hangup = false)
    (hrecvs : Readable script.recvs)
    (hsends : .failed ∉ script.sends ∧ .sent 0 ∉ script.sends)
    (hmemory : ∀ n, script.alloc n = true)
    (hwritten : ((p.loop.handle cfg fd flags script).clients fd).written =
      (p.loop.clients fd).written ++ sent)
    (h : Turned cfg start { p with down := p.down ++ sent } q more)
    (hcome : q.up = comes flags script ++ up) (hspace : up.length ≤ room ∧ q.down.length ≤ room) :
    Connected cfg fd room start (.ready fd flags script :: later)
      { q with loop := p.loop.handle cfg fd flags script, up := up } := by
  have hvalid : ∀ args ∈ q.requests, Valid cfg (parseLimit cfg start.storage) args :=
    h.valid_append hc.valid
  have hsent : receivedFrom fd later ++ comes flags script ++ up ++ q.toSend =
      q.requests.flatMap encode := by
    have hturned := h.sent
    rw [hcome, List.append_assoc] at hturned
    rw [h.requests, List.flatMap_append, ← hc.sent, List.append_assoc, List.append_assoc, hturned]
    simp
  have hboth : ((p.loop.handle cfg fd flags script).clients fd).written = q.got ++ q.down := by
    rw [hwritten, hc.received, h.received, List.append_assoc]
  have hwindow := h.window_keeps hc.window
  have hopen := hc.isOpen_handle hstart hclosed hvalid ⟨up ++ q.toSend, by simpa using hsent⟩
    hhangup hrecvs hsends hmemory (hboth ▸ List.prefix_append _ _) hwindow
  have hreceived : receivedFrom fd (.ready fd flags script :: later) =
      receivedFrom fd later ++ comes flags script := by simp [receivedFrom, comes]
  exact ⟨.next hc.run (.ready hc.isOpen), by simpa using hc.once, hopen, hvalid,
    hreceived ▸ hsent, hboth, hwindow, hspace⟩

end

theorem Connected.client (hc : Connected cfg fd room start later p) {more : List (List Bytes)}
    (h : Turned cfg start p q more) (hspace : q.up.length ≤ room) :
    Connected cfg fd room start later q := by
  have hlength := congrArg List.length h.received
  have hgot := h.got.length_le
  have hroom := hc.space.2
  rw [List.length_append, List.length_append] at hlength
  refine ⟨h.loop ▸ hc.run, hc.once, h.loop ▸ hc.isOpen, h.valid_append hc.valid, ?_,
    h.received ▸ h.loop ▸ hc.received, h.window_keeps hc.window, hspace, by omega⟩
  rw [h.requests, List.flatMap_append, ← hc.sent, List.append_assoc, h.sent]
  simp

theorem Connected.other (hc : Connected cfg fd room start later p) {e : LoopEvent} {loop : Loop}
    (hs : Loop.Step cfg p.loop e loop) (hothers : ∀ flags script, e ≠ .ready fd flags script) :
    loop.clients fd = p.loop.clients fd ∧
      Connected cfg fd room start (e :: later) { p with loop := loop } := by
  obtain ⟨hclient, hreceived, honce⟩ : loop.clients fd = p.loop.clients fd ∧
      receivedFrom fd (e :: later) = receivedFrom fd later ∧ e ≠ .accept fd := by
    cases hs with
    | @accept fd' closed =>
      have hfd : fd ≠ fd' := by
        rintro rfl
        rw [hc.isOpen] at closed
        cases closed
      refine ⟨by simp [Loop.accept, hfd], rfl, ?_⟩
      rintro ⟨⟩
      exact hfd rfl
    | @ready fd' flags script isOpen =>
      have hfd : fd ≠ fd' := by
        rintro rfl
        exact hothers flags script rfl
      refine ⟨by simp [Loop.handle, hfd], by simp [receivedFrom, hfd.symm], ?_⟩
      rintro ⟨⟩
  refine ⟨hclient, .next hc.run hs, ?_, hclient ▸ hc.isOpen, hc.valid, hreceived ▸ hc.sent,
    hclient ▸ hc.received, hc.window, hc.space⟩
  simpa [Ne.symm honce] using hc.once

theorem connected_of_reaches {earlier : List LoopEvent} {h : List Actor}
    (hstart : (loopSystem cfg).Reaches earlier start) (hclosed : (start.clients fd).isOpen = false)
    (hr : (system cfg fd room start).Reaches h p) :
    ∃ later, Connected cfg fd room start later p := by
  refine hr.stateInvariant (P := fun p => ∃ later, Connected cfg fd room start later p) ?_ ?_
  · rintro p rfl
    refine ⟨[], .start rfl, List.not_mem_nil, ?_, by simp, rfl, ?_, ?_, by simp⟩
    · simp [Loop.accept, acceptClient]
    · simp [Loop.accept, acceptClient]
    · exact ⟨0, Nat.zero_le _, [], rfl, by simp, List.nil_prefix⟩
  · rintro p a q ⟨later, hc⟩ hs
    cases hs with
    | client turn space =>
      obtain ⟨more, hturned⟩ := turned_of_turns (.single turn)
      exact ⟨later, hc.client hturned space⟩
    | serve isOpen hangup recvs sends memory watched written turns received space =>
      obtain ⟨more, hturned⟩ := turned_of_turns turns
      exact ⟨_, hc.serve hstart hclosed hangup recvs sends memory written hturned received space⟩
    | other step others => exact ⟨_, (hc.other step others).2⟩

/-! ## Progress -/

/-- An event without failures, of which the kernel has what `recv` returns and room for what `send`
takes. -/
theorem Connected.exists_serve {later : List LoopEvent}
    (hc : Connected cfg fd room start later p) (flags : Flags) (script : Script) {up : Bytes}
    (hhangup : flags.hangup = false) (hrecvs : Readable script.recvs)
    (hsends : .failed ∉ script.sends ∧ .sent 0 ∉ script.sends)
    (hmemory : ∀ n, script.alloc n = true)
    (hwatched : flags.writable = true → (p.loop.clients fd).interest = some true)
    (hup : p.up = comes flags script ++ up) (hspace : p.down.length + grant script.sends ≤ room) :
    ∃ q, Step cfg fd room start p .server q ∧ q.toSend = p.toSend ∧ q.up = up ∧
      q.loop = p.loop.handle cfg fd flags script := by
  obtain ⟨⟨sent, hwritten⟩, hgrant⟩ := writes_handleEvent cfg script.alloc script.commands flags
    script.recvs ⟨p.loop.clients fd, p.loop.storage, script.sends, 0⟩
  have hsame : ((p.loop.handle cfg fd flags script).clients fd).written =
      (p.loop.clients fd).written ++ sent := by
    rw [hwritten]
    simp [Loop.handle]
  have hroom : up.length ≤ room ∧ (p.down ++ sent).length ≤ room := by
    have hold := hc.space.1
    rw [hup, List.length_append] at hold
    rw [← hwritten, List.length_append] at hgrant
    rw [List.length_append]
    dsimp only at hgrant
    omega
  exact ⟨_, .serve hc.isOpen hhangup hrecvs hsends hmemory hwatched hsame .refl hup hroom, rfl, rfl,
    rfl⟩

/-- The event in which the server receives all that the kernel holds. -/
def receiving (up : Bytes) : Script where
  recvs := [.data up]
  commands _ := { env := ⟨0, 1, 0⟩ }
  alloc _ := true

/-- And one in which a byte is sent. -/
def sending : Script where
  sends := [.sent 1]
  commands _ := { env := ⟨0, 1, 0⟩ }
  alloc _ := true

theorem Connected.moves_up {later : List LoopEvent} (hc : Connected cfg fd room start later p)
    (hup : p.up ≠ []) : ∃ a q, Step cfg fd room start p a q ∧ Moves fd p q := by
  have hcomes : p.up = comes ⟨true, false, false⟩ (receiving p.up) ++ [] := by
    cases hbytes : p.up with
    | nil => exact absurd hbytes hup
    | cons c bytes => simp [comes, receiving, Server.received]
  obtain ⟨q, hs, hsame, hleft, -⟩ := hc.exists_serve ⟨true, false, false⟩ (receiving p.up) rfl
    (by simpa [Readable, receiving] using hup) (by simp [receiving]) (fun _ => rfl) (by simp)
    hcomes hc.space.2
  refine ⟨_, q, hs, .inr (.inl ?_)⟩
  have hpos := List.length_pos_iff.mpr hup
  rw [hsame, hleft, List.length_nil]
  omega

section

variable {earlier later : List LoopEvent} (hstart : (loopSystem cfg).Reaches earlier start)
  (hclosed : (start.clients fd).isOpen = false)

include hstart hclosed

theorem Connected.moves_down (hc : Connected cfg fd room start later p)
    (hspace : p.down.length < room) (hwatched : (p.loop.clients fd).interest = some true) :
    ∃ a q, Step cfg fd room start p a q ∧ Moves fd p q := by
  have hr := hc.reaches hstart hclosed
  have htabled := tabled_of_reaches hr fd
  obtain ⟨queue, hqueue, hne⟩ := (htabled.armed hc.isOpen).mp (htabled.interest ▸ hwatched)
  obtain ⟨chunk, queue, rfl⟩ := List.exists_cons_of_ne_nil hne
  have hpart := (inLine_of_reaches hr fd hc.isOpen).head chunk (by simp [hqueue])
  obtain ⟨q, hs, -, -, hloop⟩ := hc.exists_serve ⟨false, true, false⟩ sending rfl
    (by simp [Readable, sending]) (by simp [sending]) (fun _ => rfl) (fun _ => hwatched)
    (List.nil_append p.up).symm hspace
  refine ⟨_, q, hs, .inr (.inr (.inl ?_))⟩
  rw [hloop]
  simpa [Loop.handle, handleEvent, sending] using lt_written_trySend hqueue hpart

/-- Nothing is on its way, and the server has nothing to send. -/
theorem Connected.hasRead (hc : Connected cfg fd room start later p) (hsent : p.toSend = [])
    (hup : p.up = []) (hdown : p.down = [])
    (hwatched : (p.loop.clients fd).interest ≠ some true) : p.HasRead p.requests.length := by
  have hr := hc.reaches hstart hclosed
  have htabled := tabled_of_reaches hr fd
  have hunsent : unsent ((p.loop.clients fd).outbox.getD []) = [] := by
    have hnone := mt (htabled.armed hc.isOpen).mpr (htabled.interest ▸ hwatched)
    cases houtbox : (p.loop.clients fd).outbox with
    | none => rfl
    | some queue =>
      have hnil : queue = [] := by
        by_contra hne
        exact hnone ⟨queue, houtbox, hne⟩
      rw [hnil]
      rfl
  have hbalance := ((sound_of_reaches hr fd).live_of_isOpen hc.isOpen).balance
  obtain ⟨parser, trace, -, hserved, hreplies, hcommands⟩ := hc.served hstart hclosed
  have hall := hc.sent
  rw [hsent, hup, List.append_nil, List.append_nil] at hall
  obtain ⟨q, -, hwhole⟩ := takes_encode hc.valid
  rw [hall] at hcommands
  have hasked := hcommands.1.symm.trans hwhole.1
  refine ⟨(p.loop.clients fd).replies, ?_, fun reply hreply => ?_, ?_⟩
  · have hlength := congrArg List.length hasked
    rw [List.length_map, List.length_map] at hlength
    rw [hreplies, List.length_map, hlength]
  · rw [hreplies] at hreply
    obtain ⟨x, hx, rfl⟩ := List.mem_map.mp hreply
    exact isReply_of_served hserved (hasked ▸ List.prefix_rfl)
      (fun args hargs => (hc.valid args hargs).safe) x hx
  · rw [← hbalance, hunsent, List.append_nil, hc.received, hdown, List.append_nil]

/-- Until all replies have been read, some byte can be moved. -/
theorem Connected.exists_moves (hc : Connected cfg fd room start later p) (hroom : 0 < room)
    (hread : ¬ p.HasRead p.requests.length) :
    ∃ a q, Step cfg fd room start p a q ∧ Moves fd p q := by
  by_cases hup : p.up = []
  · by_cases hsent : p.toSend = []
    · by_cases hdown : p.down = []
      · by_cases hwatched : (p.loop.clients fd).interest = some true
        · exact hc.moves_down hstart hclosed (by simpa [hdown] using hroom) hwatched
        · exact absurd (hc.hasRead hstart hclosed hsent hup hdown hwatched) hread
      · have hpos := List.length_pos_iff.mpr hdown
        refine ⟨_, _, .client (.read p.down.length hsent) hc.space.1, .inr (.inr (.inr ?_))⟩
        simpa using hpos
    · have hpos := List.length_pos_iff.mpr hsent
      refine ⟨_, _, .client (.send 1) ?_, .inl ?_⟩
      · simp only [hup, List.nil_append, List.length_take]
        omega
      · simp only [List.length_drop]
        omega
  · exact hc.moves_up hup

end

/-- What is still to be done for the requests so far: bytes that the server has not received, then
bytes that are to be sent, written and read. What is received brings new replies, of any length. -/
def toGo (fd : Nat) (p : Pipeline) : ℕ ×ₗ ℕ :=
  toLex (p.toSend.length + p.up.length,
    2 * (p.toSend.length + (unsent ((p.loop.clients fd).outbox.getD [])).length) + p.down.length)

/-- `come` bytes are received; if there are none, `sent` are written and `read` are read. -/
theorem toGo_le (come sent read : Nat)
    (hcome : q.toSend.length + q.up.length + come = p.toSend.length + p.up.length)
    (hnothing : come = 0 → q.toSend.length ≤ p.toSend.length ∧
      (unsent ((q.loop.clients fd).outbox.getD [])).length + sent =
        (unsent ((p.loop.clients fd).outbox.getD [])).length ∧
      (q.loop.clients fd).written.length = (p.loop.clients fd).written.length + sent ∧
      q.down.length + read = p.down.length + sent ∧ q.got.length = p.got.length + read) :
    q.toGo fd ≤ p.toGo fd ∧ (Moves fd p q → q.toGo fd < p.toGo fd) := by
  by_cases hzero : come = 0
  · obtain ⟨hsend, hunsent, hwritten, hdown, hgot⟩ := hnothing hzero
    constructor
    · rw [toGo, toGo, Prod.Lex.toLex_le_toLex]
      exact .inr ⟨by omega, by omega⟩
    · intro hmoves
      rw [toGo, toGo, Prod.Lex.toLex_lt_toLex]
      refine .inr ⟨by omega, ?_⟩
      obtain hlt | hlt | hlt | hlt := hmoves <;> omega
  · have hlt : q.toGo fd < p.toGo fd := by
      rw [toGo, toGo, Prod.Lex.toLex_lt_toLex]
      exact .inl (by omega)
    exact ⟨hlt.le, fun _ => hlt⟩

/-- Turns without a new batch only move bytes on. -/
theorem Turned.counts {more : List (List Bytes)} (h : Turned cfg start p q more)
    (hread : ¬ q.HasRead p.requests.length) :
    q.toSend.length ≤ p.toSend.length ∧
      q.toSend.length + q.up.length = p.toSend.length + p.up.length ∧
      q.got.length + q.down.length = p.got.length + p.down.length := by
  obtain ⟨rfl, hle⟩ | ⟨n, hn, -, hall⟩ := h.window
  · have hsent := congrArg List.length h.sent
    have hreceived := congrArg List.length h.received
    simp only [List.flatMap_nil, List.append_nil, List.length_append] at hsent hreceived
    omega
  · exact absurd (hall.mono hn) hread

section

variable {earlier later later' : List LoopEvent} (hstart : (loopSystem cfg).Reaches earlier start)
  (hclosed : (start.clients fd).isOpen = false)

include hstart hclosed

/-- No step before the replies have been read raises the measure, and one that moves a byte lowers
it. -/
theorem Connected.toGo_step (hc : Connected cfg fd room start later p)
    (hc' : Connected cfg fd room start later' q) {a : Actor}
    (hs : Step cfg fd room start p a q) (hread : ¬ q.HasRead p.requests.length) :
    q.toGo fd ≤ p.toGo fd ∧ (Moves fd p q → q.toGo fd < p.toGo fd) := by
  cases hs with
  | client turn space =>
    obtain ⟨more, h⟩ := turned_of_turns (.single turn)
    obtain ⟨hsend, hup, hdown⟩ := h.counts hread
    have hgot : p.got.length ≤ q.got.length := h.got.length_le
    refine toGo_le 0 0 (q.got.length - p.got.length) hup fun _ => ?_
    rw [h.loop]
    omega
  | @serve q flags script sent up isOpen hangup recvs sends memory watched written turns
      received space =>
    obtain ⟨more, h⟩ := turned_of_turns turns
    obtain ⟨hsend, hup, hdown⟩ := h.counts hread
    have hgot : p.got.length ≤ q.got.length := h.got.length_le
    rw [received, List.length_append] at hup
    simp only [List.length_append] at hsend hup hdown
    refine toGo_le (comes flags script).length sent.length (q.got.length - p.got.length)
      (by dsimp only; omega) fun hnothing => ?_
    obtain ⟨parser, -, hparser, -⟩ := hc.served hstart hclosed
    have hlive := (sound_of_reaches (hc.reaches hstart hclosed) fd).live_of_isOpen hc.isOpen
    have hlive' := (sound_of_reaches (hc'.reaches hstart hclosed) fd).live_of_isOpen hc'.isOpen
    have hcommands : p.loop.executed cfg fd flags script <+: asked parser (comes flags script) :=
      executedEvent_prefix (r := ⟨p.loop.clients fd, p.loop.storage, script.sends, 0⟩) cfg
        script.alloc script.commands flags script.recvs hlive hparser
    -- where nothing is received, nothing is promised
    have hcome : comes flags script = [] := List.eq_nil_of_length_eq_zero hnothing
    have hnone : p.loop.exchanges cfg fd flags script = [] := by
      have hasked : asked parser (comes flags script) = [] := by
        rw [hcome]
        exact (takes_nil parser).1
      rw [hasked, List.prefix_nil] at hcommands
      exact List.map_eq_nil_iff.mp (commands_exchanges.trans hcommands)
    have hsame : ((p.loop.handle cfg fd flags script).clients fd).replies =
        (p.loop.clients fd).replies := by
      rw [replies_handle, hnone, List.map_nil, List.append_nil]
    have hbefore := congrArg List.length hlive.balance
    have hafter := congrArg List.length hlive'.balance
    dsimp only at hafter ⊢
    rw [written, hsame, ← hlive.balance] at hafter
    have hwritten := congrArg List.length written
    simp only [List.length_append] at hbefore hafter hwritten
    omega
  | other step others =>
    obtain ⟨hclient, -⟩ := hc.other step others
    refine toGo_le 0 0 0 rfl fun _ => ?_
    simp [hclient]

end

/-! ## Runs -/

variable {earlier : List LoopEvent} {h : List Actor}

theorem requests_step {a : Actor} (hs : Step cfg fd room start p a q) :
    p.requests.length ≤ q.requests.length := by
  have hmore : ∀ {p q : Pipeline}, ReflTransGen (Turn cfg start) p q →
      p.requests.length ≤ q.requests.length := by
    intro p q hturns
    obtain ⟨more, hturned⟩ := turned_of_turns hturns
    rw [hturned.requests, List.length_append]
    exact Nat.le_add_right _ _
  cases hs with
  | client turn space => exact hmore (.single turn)
  | serve isOpen hangup recvs sends memory watched written turns received space =>
    have hle := hmore turns
    exact hle
  | other step others => exact Nat.le_refl _

/-- The server does not drop a client that sends batches of at most 1024 requests; and however few
bytes the kernel holds, the two never wait for each other: until all replies have been read, a byte
can be sent, received, written or read. -/
theorem never_stuck (hstart : (loopSystem cfg).Reaches earlier start)
    (hclosed : (start.clients fd).isOpen = false) (hroom : 0 < room)
    (hr : (system cfg fd room start).Reaches h p) :
    (p.loop.clients fd).isOpen = true ∧ (p.HasRead p.requests.length ∨
      ∃ a q, Step cfg fd room start p a q ∧ Moves fd p q) := by
  obtain ⟨later, hc⟩ := connected_of_reaches hstart hclosed hr
  refine ⟨hc.isOpen, ?_⟩
  by_cases hread : p.HasRead p.requests.length
  · exact .inl hread
  · exact .inr (hc.exists_moves hstart hclosed hroom hread)

/-! A batch of one `PING`, which the server receives as a whole. -/

def pingConfig : Config := ⟨false, 8, fun _ => []⟩

def ping : List (List Bytes) := [[ascii "PING"]]

def pingScript : Script := { receiving (ping.flatMap encode) with sends := [.sent 7] }

/-- When `sendall` is called. -/
def pinging : Pipeline where
  loop := idle.accept pingConfig 7
  requests := ping
  toSend := ping.flatMap encode

/-- After the event of the server. -/
def ponged : Pipeline := { pinging with
  loop := pinging.loop.handle pingConfig 7 ⟨true, false, false⟩ pingScript
  toSend := []
  down := ascii "+PONG\r\n" }

def pingRun : ℕ → Pipeline
  | 0 => { loop := idle.accept pingConfig 7 }
  | 1 => pinging
  | 2 => { pinging with toSend := [], up := ping.flatMap encode }
  | 3 => ponged
  | _ + 4 => { ponged with down := [], got := ascii "+PONG\r\n" }

theorem step_pingRun (n : ℕ) :
    ∃ a, Step pingConfig 7 16 idle (pingRun n) a (pingRun (n + 1)) := by
  have hset : (classify [ascii "PING"]).type = .ping := by decide
  have hvalid : ∀ args ∈ ping, Valid pingConfig (parseLimit pingConfig idle.storage) args := by
    intro args hargs
    rw [List.mem_singleton.mp hargs]
    exact ⟨by decide, by decide +kernel, by decide, by simp [Echoes, hset]⟩
  rcases n with _ | _ | _ | _ | n
  · exact ⟨_, .client (.batch ping rfl ⟨[], rfl, by simp, List.nil_prefix⟩ (by decide) hvalid)
      (by decide)⟩
  · exact ⟨_, .client (.send 14) (by decide)⟩
  · exact ⟨_, .serve (by decide) rfl (by decide) (by decide) (fun _ => rfl) (by decide)
      (by decide +kernel) .refl (by decide +kernel) (by decide +kernel)⟩
  · exact ⟨_, .client (.read 7 rfl) (by decide)⟩
  · exact ⟨_, .client (.read 0 rfl) (Nat.zero_le _)⟩

theorem hasRead_pingRun (n : ℕ) : (pingRun (n + 4)).HasRead 1 := by
  have hline : IsReply (43 :: ascii "PONG" ++ [CR, LF]) := .line (.inl rfl) (by decide)
  refine ⟨[ascii "+PONG\r\n"], rfl, ?_, List.prefix_rfl⟩
  intro reply hreply
  rw [List.mem_singleton.mp hreply]
  exact hline

/-- As long as the reply has not come, each step moves a byte. -/
theorem moves_pingRun (n : ℕ) (hread : ¬ (pingRun n).HasRead (pingRun n).requests.length) :
    Moves 7 (pingRun n) (pingRun (n + 1)) := by
  rcases n with _ | _ | _ | _ | n
  · exact absurd ⟨[], rfl, by simp, List.nil_prefix⟩ hread
  · exact .inl (by decide)
  · exact .inr (.inl (by decide))
  · exact .inr (.inr (.inr (by decide)))
  · exact absurd (hasRead_pingRun n) hread

theorem never_stuck_pinging :
    (pinging.loop.clients 7).isOpen = true ∧ (pinging.HasRead 1 ∨
      ∃ a q, Step pingConfig 7 16 idle pinging a q ∧ Moves 7 pinging q) := by
  have hidle : (loopSystem pingConfig).Reaches [] idle := .start fun _ => rfl
  obtain ⟨a, hs⟩ := step_pingRun 0
  exact never_stuck hidle rfl (by decide) (.next (.start rfl) hs)

/-- In a run in which, while replies are due, the bytes that can be moved are not held up for ever,
the replies to all requests come. -/
theorem replies_come {run : ℕ → Pipeline} (hstart : (loopSystem cfg).Reaches earlier start)
    (hclosed : (start.clients fd).isOpen = false) (hroom : 0 < room)
    (hr : (system cfg fd room start).Reaches h (run 0))
    (hrun : ∀ n, ∃ a, Step cfg fd room start (run n) a (run (n + 1)))
    (hfair : ∀ n, ¬ (run n).HasRead (run n).requests.length →
      (∃ a q, Step cfg fd room start (run n) a q ∧ Moves fd (run n) q) →
      ∃ m, n ≤ m ∧ Moves fd (run m) (run (m + 1))) (n : ℕ) :
    ∃ m, n ≤ m ∧ (run m).HasRead (run n).requests.length := by
  have hreaches : ∀ m, ∃ later, Connected cfg fd room start later (run m) := by
    intro m
    obtain ⟨h, hm⟩ := hr.of_run hrun m
    exact connected_of_reaches hstart hclosed hm
  have hgrows : ∀ i, (run n).requests.length ≤ (run (n + i)).requests.length := by
    intro i
    induction i with
    | zero => exact Nat.le_refl _
    | succ i ih =>
      obtain ⟨a, hs⟩ := hrun (n + i)
      exact ih.trans (requests_step hs)
  have hstep : ∀ i, ¬ (run (n + (i + 1))).HasRead (run n).requests.length →
      (run (n + (i + 1))).toGo fd ≤ (run (n + i)).toGo fd ∧
        (Moves fd (run (n + i)) (run (n + (i + 1))) →
          (run (n + (i + 1))).toGo fd < (run (n + i)).toGo fd) := by
    intro i hread
    obtain ⟨later, hc⟩ := hreaches (n + i)
    obtain ⟨later', hc'⟩ := hreaches (n + (i + 1))
    obtain ⟨a, hs⟩ := hrun (n + i)
    exact hc.toGo_step hstart hclosed hc' hs fun hall => hread (hall.mono (hgrows i))
  obtain ⟨i, hi⟩ := Transition.eventually_of_measure (fun i => run (n + i))
    (fun p => p.HasRead (run n).requests.length) (toGo fd)
    (fun i _ hread => (hstep i hread).1) fun i hread => by
      obtain ⟨later, hc⟩ := hreaches (n + i)
      have hdue : ¬ (run (n + i)).HasRead (run (n + i)).requests.length :=
        fun hall => hread (hall.mono (hgrows i))
      obtain ⟨m, hm, hmoves⟩ := hfair (n + i) hdue (hc.exists_moves hstart hclosed hroom hdue)
      obtain ⟨j, rfl⟩ := Nat.exists_eq_add_of_le ((Nat.le_add_right n i).trans hm)
      by_cases hgoal : (run (n + (j + 1))).HasRead (run n).requests.length
      · exact ⟨j + 1, by omega, .inl hgoal⟩
      · exact ⟨j, by omega, .inr ((hstep j hgoal).2 hmoves)⟩
  exact ⟨n + i, Nat.le_add_right n i, hi⟩

theorem pong_comes : ∃ m, 1 ≤ m ∧ (pingRun m).HasRead 1 := by
  have hidle : (loopSystem pingConfig).Reaches [] idle := .start fun _ => rfl
  have haccepted : (system pingConfig 7 16 idle).Reaches [] (pingRun 0) := .start rfl
  exact replies_come hidle rfl (by decide) haccepted step_pingRun
    (fun n hread _ => ⟨n, Nat.le_refl n, moves_pingRun n hread⟩) 1

end Pipeline

end Bench

end PolyCache
