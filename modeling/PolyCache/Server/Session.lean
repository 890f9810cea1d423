import PolyCache.Protocol.Accept
import PolyCache.Server.Executed

/-!
# The replies of a connection

The commands that the loop executes in a run, each on the store that the ones before it and the
sweeper left. Those of a connection are the commands of the frames it sent, in order, without those
that have no verb, and its replies are their responses.
-/

namespace PolyCache

open Protocol

namespace Server

/-- What `recv` returns until it would block. -/
def received : List RecvResult → Bytes
  | [] | .again :: _ | .failed :: _ | .data [] :: _ => []
  | .intr :: recvs => received recvs
  | .data (c :: bytes) :: recvs => c :: bytes ++ received recvs

/-- The bytes received from a client in a run, newest event first. -/
def receivedFrom (fd : Nat) : List LoopEvent → Bytes
  | [] => []
  | .accept _ :: events => receivedFrom fd events
  | .ready fd' flags script :: events =>
    receivedFrom fd events ++
      if fd' = fd ∧ flags.readable then received script.recvs else []

variable {cfg : Config} {alloc : Nat → Bool} {commands : Nat → Surroundings} {fd : Nat}
  {r r₁ r₂ : Run} {data more : Bytes} {p p₁ p₂ : Parser} {served served' : List Command}

/-! ## What a parser takes -/

/-- If no allocation fails, the parser takes `data`, returns the commands `served`, apart from blank
ones, and is left as `p'`. -/
def Takes (p : Parser) (data : Bytes) (served : List Command) (p' : Parser) : Prop :=
  (p.feed (fun _ => true) data).commands.filter (fun cmd => ¬ Blank cmd) = served ∧
    (p.feed (fun _ => true) data).parser = p'

theorem takes_nil (p : Parser) : Takes p [] [] p := ⟨rfl, rfl⟩

theorem takes_of_failed (h : p.state = .failed) (data : Bytes) : Takes p data [] p := by
  by_cases hdata : data = []
  · subst hdata
    exact takes_nil p
  · have hfeed : p.feed (fun _ => true) data = ⟨[], p, data⟩ := by
      rw [Parser.feed_eq (Parser.resting_of_failed h) hdata, Parser.consume_eq, Parser.turn, h]
      rfl
    simp [Takes, hfeed]

theorem Takes.append (hp : p.Resting) (h : Takes p data served p₁)
    (h' : Takes p₁ more served' p₂) : Takes p (data ++ more) (served ++ served') p₂ := by
  have hfeed : (p.feed (fun _ => true) (data ++ more)).outcome =
      ((p.feed (fun _ => true) data).andThen fun q => q.feed (fun _ => true) more).outcome :=
    Parser.feed_append hp more
  obtain ⟨rfl, rfl⟩ := h
  rw [Parser.Fed.outcome, Parser.Fed.outcome, Prod.mk.injEq] at hfeed
  rw [Takes, hfeed.1, hfeed.2, Parser.Fed.andThen]
  split_ifs with hfailed
  · obtain ⟨rfl, rfl⟩ := h'
    obtain ⟨hserved, hparser⟩ := takes_of_failed hfailed more
    rw [hserved, hparser, List.append_nil]
    exact ⟨rfl, rfl⟩
  · obtain ⟨rfl, rfl⟩ := h'
    exact ⟨List.filter_append .., rfl⟩

/-- A call of `consume` that asks for more. -/
theorem takes_needMore {rest : Bytes} (hp : p.Resting) (hdata : data ≠ [])
    (h : p.consume alloc data = .needMore p₁ rest) : Takes p data [] p₁ := by
  have hgranted := Parser.consume_granted (p := p) fun q rest herror => by
    rw [h] at herror
    cases herror
  rw [Takes, Parser.feed_eq hp hdata, hgranted, h]
  exact ⟨rfl, rfl⟩

/-- A call of `consume` that returns a command. -/
theorem takes_ready {cmd : Command} {rest : Bytes} (hp : p.Resting) (hdata : data ≠ [])
    (h : p.consume alloc data = .ready cmd p₁ rest) (h' : Takes p₁ rest served p₂) :
    Takes p data ([cmd].filter (fun cmd => ¬ Blank cmd) ++ served) p₂ := by
  have hgranted := Parser.consume_granted (p := p) fun q rest herror => by
    rw [h] at herror
    cases herror
  obtain ⟨rfl, rfl⟩ := h'
  rw [Takes, Parser.feed_eq hp hdata, hgranted, h]
  refine ⟨?_, rfl⟩
  rw [← List.filter_append]
  rfl

/-! ## One event -/

/-- If the client is still open in `r'`, its parser has taken `data` and found `cmds`. -/
def Took (r : Run) (data : Bytes) (cmds : List Command) (r' : Run) : Prop :=
  ∀ p', r'.client.parser = some p' → ∃ p, r.client.parser = some p ∧ Takes p data cmds p'

theorem Took.refl (r : Run) : Took r [] [] r := fun p hp => ⟨p, hp, takes_nil p⟩

/-- Nothing is claimed of a client that was closed. -/
theorem Took.closed (hparser : r₁.client.parser = none) (data : Bytes) (cmds : List Command) :
    Took r data cmds r₁ := by
  intro p hp
  rw [hparser] at hp
  cases hp

theorem Took.trans (hsound : r.client.Sound) (h : Took r data served r₁)
    (h' : Took r₁ more served' r₂) : Took r (data ++ more) (served ++ served') r₂ := by
  intro p₂ hp₂
  obtain ⟨p₁, hp₁, htakes'⟩ := h' p₂ hp₂
  obtain ⟨p, hp, htakes⟩ := h p₁ hp₁
  have hlive := hsound.live_of_hasParser (by simp [hp])
  exact ⟨p, hp, htakes.append (hlive.resting hp) htakes'⟩

/-- Then nothing but sending, or closing the client. -/
theorem Took.kept (h : Took r data served r₁) (hkept : Kept r₁.client r₂.client) :
    Took r data served r₂ := fun p' hp' => h p' (hkept.2 p' hp')

/-- The loop over a received buffer. If it returns from `handle_readable`, the client is closed. -/
theorem took_takeBuffer (cfg : Config) (alloc : Nat → Bool) (commands : Nat → Surroundings)
    (rounds : Nat) (hrounds : data.length < rounds) (h : r.client.Sound) :
    Took r data (executedBuffer cfg alloc commands rounds r data)
        (takeBuffer cfg alloc commands rounds r data).1 ∧
      ((takeBuffer cfg alloc commands rounds r data).2 = true →
        (takeBuffer cfg alloc commands rounds r data).1.client.parser = none) := by
  induction rounds generalizing r data with
  | zero => omega
  | succ rounds ih =>
    rw [takeBuffer, executedBuffer]
    split_ifs with hdata
    · subst hdata
      exact ⟨.refl r, by simp⟩
    · cases hparser : r.client.parser with
      | none => exact ⟨.closed hparser data _, fun _ => hparser⟩
      | some p =>
        have hlive := h.live_of_hasParser (by simp [hparser])
        have hresting := hlive.resting hparser
        dsimp only
        cases hconsume : p.consume alloc data with
        | needMore p' rest =>
          refine ⟨fun q hq => ⟨p, hparser, ?_⟩, by simp⟩
          obtain rfl := Option.some.inj hq
          exact takes_needMore hresting hdata hconsume
        | error p' rest => exact ⟨.closed rfl data _, fun _ => rfl⟩
        | ready cmd p' rest =>
          obtain ⟨hlt, hrun⟩ := sound_of_ready cfg alloc commands hlive hparser hconsume
          have hkept : ∀ q, (runCommand cfg commands { r with client.parser := some p' }
              cmd).client.parser = some q → q = p' := fun q => parser_runCommand cmd rfl
          dsimp only
          generalize runCommand cfg commands { r with client.parser := some p' } cmd = r₁ at *
          split_ifs with hnone
          · rw [Option.isNone_iff_eq_none] at hnone
            exact ⟨.closed hnone data _, fun _ => hnone⟩
          · obtain ⟨htook, hclosed⟩ := ih (show rest.length < rounds by omega) hrun
            refine ⟨fun q hq => ?_, hclosed⟩
            obtain ⟨p₁, hp₁, htakes⟩ := htook q hq
            obtain rfl := hkept p₁ hp₁
            exact ⟨p, hparser, takes_ready hresting hdata hconsume htakes⟩

theorem took_handleReadable (cfg : Config) (alloc : Nat → Bool)
    (commands : Nat → Surroundings) (recvs : List RecvResult) (h : r.client.Sound) :
    Took r (received recvs) (executedReadable cfg alloc commands recvs r)
      (handleReadable cfg alloc commands recvs r) := by
  fun_induction handleReadable cfg alloc commands recvs r with
  | case1 r => exact .refl r
  | case2 recvs r => exact .refl r
  | case3 r recvs ih => exact ih h
  | case4 recvs r => exact .closed rfl _ _
  | case5 recvs r => exact .closed rfl _ _
  | case6 c bytes recvs r hnone => exact .closed (Option.isNone_iff_eq_none.mp hnone) _ _
  | case7 c bytes recvs r hnone r' hbuffer =>
    obtain ⟨-, hclosed⟩ := took_takeBuffer cfg alloc commands _
      (Nat.lt_succ_self (c :: bytes).length) h
    rw [hbuffer] at hclosed
    exact .closed (hclosed rfl) _ _
  | case8 c bytes recvs r hnone r' hbuffer ih =>
    obtain ⟨htook, -⟩ := took_takeBuffer cfg alloc commands _
      (Nat.lt_succ_self (c :: bytes).length) h
    have hsound := sound_takeBuffer cfg alloc commands ((c :: bytes).length + 1) (c :: bytes) h
    rw [hbuffer] at htook hsound
    rw [executedReadable, if_neg hnone]
    dsimp only
    rw [hbuffer, if_neg Bool.false_ne_true]
    exact htook.trans h (ih hsound)

theorem took_handleEvent (cfg : Config) (alloc : Nat → Bool) (commands : Nat → Surroundings)
    (flags : Flags) (recvs : List RecvResult) (h : r.client.Sound) :
    Took r (if flags.readable then received recvs else [])
      (executedEvent cfg alloc commands flags recvs r)
      (handleEvent cfg alloc commands flags recvs r) := by
  by_cases hhangup : flags.hangup ∧ ¬ flags.readable
  · rw [handleEvent, if_pos hhangup]
    exact .closed rfl _ _
  · rw [handleEvent, if_neg hhangup, executedEvent]
    have hread : Took r (if flags.readable then received recvs else [])
        (if flags.readable then executedReadable cfg alloc commands recvs r else [])
        (if flags.readable then handleReadable cfg alloc commands recvs r else r) := by
      split_ifs
      · exact took_handleReadable cfg alloc commands recvs h
      · exact .refl r
    generalize (if flags.readable then handleReadable cfg alloc commands recvs r else r) = r' at *
    generalize (if flags.readable then received recvs else []) = data at *
    generalize (if flags.readable then executedReadable cfg alloc commands recvs r else []) =
      cmds at *
    have hsent : Took r data cmds { r' with
        client := (trySend r'.client r'.sends).1
        sends := (trySend r'.client r'.sends).2 } := hread.kept (kept_trySend _ _)
    have hclose : ∀ {r₁ : Run}, Took r data cmds { r₁ with client := closeClient r₁.client } :=
      fun {r₁} => .closed rfl _ _
    dsimp only
    split_ifs
    · exact hread
    · exact hclose
    · exact hsent
    · exact hclose
    · exact hread

/-! ## Runs -/

namespace Loop

/-- What the handling of an event executes. -/
def executed (cfg : Config) (l : Loop) (fd : Nat) (flags : Flags) (script : Script) :
    List Command :=
  executedEvent cfg script.alloc script.commands flags script.recvs
    ⟨l.clients fd, l.storage, script.sends, 0⟩

/-- Its commands, with what they find and what they do. -/
def done (cfg : Config) (l : Loop) (fd : Nat) (flags : Flags) (script : Script) :
    List Execution :=
  outcomes cfg script.commands 0 l.storage (l.executed cfg fd flags script)

def exchanges (cfg : Config) (l : Loop) (fd : Nat) (flags : Flags) (script : Script) :
    List Exchange :=
  (l.done cfg fd flags script).map (Execution.exchange fd)

/-- The loop after a run, whose newest event is the first. -/
def after (cfg : Config) (start : Loop) : List LoopEvent → Loop
  | [] => start
  | .accept fd :: events => (start.after cfg events).accept cfg fd
  | .ready fd flags script :: events => (start.after cfg events).handle cfg fd flags script

/-- The commands that a run executes, oldest first. -/
def trace (cfg : Config) (start : Loop) : List LoopEvent → List Exchange
  | [] => []
  | .accept _ :: events => start.trace cfg events
  | .ready fd flags script :: events =>
    start.trace cfg events ++ (start.after cfg events).exchanges cfg fd flags script

end Loop

section

variable {start l : Loop} {events : List LoopEvent} {flags : Flags} {script : Script}

theorem fd_of_exchanges : ∀ x ∈ l.exchanges cfg fd flags script, x.fd = fd := by
  intro x hx
  obtain ⟨o, -, rfl⟩ := List.mem_map.mp hx
  rfl

theorem commands_exchanges : (l.exchanges cfg fd flags script).map Exchange.command =
    l.executed cfg fd flags script := by
  rw [Loop.exchanges, List.map_map]
  exact commands_outcomes _ _ _

/-- The commands of an event, one after the other, are all that it does to the store. -/
theorem served_exchanges : Served cfg l.storage (l.exchanges cfg fd flags script)
    (l.handle cfg fd flags script).storage := by
  have hstorage := (executes_handleEvent cfg script.alloc script.commands flags script.recvs
    ⟨l.clients fd, l.storage, script.sends, 0⟩).storage
  rw [Loop.handle, hstorage]
  exact served_outcomes fd 0 l.storage _

theorem replies_handle : ((l.handle cfg fd flags script).clients fd).replies =
    (l.clients fd).replies ++ (l.exchanges cfg fd flags script).map fun x => x.response.frame := by
  have hreplies := (executes_handleEvent cfg script.alloc script.commands flags script.recvs
    ⟨l.clients fd, l.storage, script.sends, 0⟩).replies
  simp only [Loop.handle, Function.update_self, hreplies, Loop.exchanges, List.map_map]
  rfl

theorem after_of_reaches (hr : ((loopSystem cfg).startAt start).Reaches events l) :
    start.after cfg events = l := by
  induction hr with
  | start hs => exact hs.symm
  | next _ hs ih =>
    subst ih
    cases hs <;> rfl

theorem served_trace (hr : ((loopSystem cfg).startAt start).Reaches events l) :
    Served cfg start.storage (start.trace cfg events) l.storage := by
  induction hr with
  | start hs =>
    obtain rfl : _ = start := hs
    exact .nil
  | next hr hs ih =>
    have hafter := after_of_reaches hr
    subst hafter
    cases hs with
    | accept closed => exact ih
    | ready isOpen => exact ih.append served_exchanges

/-- Of the commands of a run those of one client. -/
def ofClient (fd : Nat) (trace : List Exchange) : List Exchange := trace.filter fun x => x.fd = fd

variable {trace trace' : List Exchange}

theorem ofClient_append (fd : Nat) (trace trace' : List Exchange) :
    ofClient fd (trace ++ trace') = ofClient fd trace ++ ofClient fd trace' := List.filter_append ..

theorem ofClient_eq_self (h : ∀ x ∈ trace, x.fd = fd) : ofClient fd trace = trace :=
  List.filter_eq_self.mpr fun x hx => decide_eq_true (h x hx)

theorem ofClient_eq_nil {fd' : Nat} (h : ∀ x ∈ trace, x.fd = fd') (hfd : fd' ≠ fd) :
    ofClient fd trace = [] :=
  List.filter_eq_nil_iff.mpr fun x hx => by simp [h x hx, hfd]

/-- What the run since the client was accepted has to do with it. -/
structure Conversed (cfg : Config) (fd : Nat) (start : Loop) (events : List LoopEvent) (l : Loop) :
    Prop where
  replies : (l.clients fd).replies =
    (ofClient fd (start.trace cfg events)).map fun x => x.response.frame
  takes : ∀ p', (l.clients fd).parser = some p' → ∃ p, (start.clients fd).parser = some p ∧
    Takes p (receivedFrom fd events)
      ((ofClient fd (start.trace cfg events)).map Exchange.command) p'

/-- Another client is accepted. -/
theorem Conversed.accept {fd' : Nat} (h : Conversed cfg fd start events l) (hfd : fd ≠ fd') :
    Conversed cfg fd start (.accept fd' :: events) (l.accept cfg fd') := by
  constructor
  · simpa [Loop.accept, hfd, Loop.trace] using h.replies
  · simpa [Loop.accept, hfd, Loop.trace, receivedFrom] using h.takes

theorem trace_ready (hafter : start.after cfg events = l) (flags : Flags) (script : Script) :
    start.trace cfg (.ready fd flags script :: events) =
      start.trace cfg events ++ l.exchanges cfg fd flags script := by
  rw [Loop.trace, hafter]

/-- An event of the client adds the commands that it executes. -/
theorem Conversed.ready_own (hafter : start.after cfg events = l)
    (hstart : (start.clients fd).Sound) (hl : (l.clients fd).Sound)
    (h : Conversed cfg fd start events l) :
    Conversed cfg fd start (.ready fd flags script :: events) (l.handle cfg fd flags script) := by
  have htook := took_handleEvent cfg script.alloc script.commands flags script.recvs
    (r := ⟨l.clients fd, l.storage, script.sends, 0⟩) hl
  have hall : ofClient fd (start.trace cfg (.ready fd flags script :: events)) =
      ofClient fd (start.trace cfg events) ++ l.exchanges cfg fd flags script := by
    rw [trace_ready hafter, ofClient_append, ofClient_eq_self fd_of_exchanges]
  constructor
  · rw [replies_handle, hall, List.map_append, h.replies]
  · intro p' hp'
    obtain ⟨p₁, hp₁, htakes'⟩ := htook p' (by simpa [Loop.handle] using hp')
    obtain ⟨p, hp, htakes⟩ := h.takes p₁ hp₁
    have hlive := hstart.live_of_hasParser (by simp [hp])
    refine ⟨p, hp, ?_⟩
    rw [hall, List.map_append, commands_exchanges]
    have happend := htakes.append (hlive.resting hp) htakes'
    simpa [receivedFrom, Loop.executed] using happend

/-- An event of another client changes only the store. -/
theorem Conversed.ready_other {fd' : Nat} (hafter : start.after cfg events = l) (hfd : fd' ≠ fd)
    (h : Conversed cfg fd start events l) :
    Conversed cfg fd start (.ready fd' flags script :: events)
      (l.handle cfg fd' flags script) := by
  have hall : ofClient fd (start.trace cfg (.ready fd' flags script :: events)) =
      ofClient fd (start.trace cfg events) := by
    rw [trace_ready hafter, ofClient_append, ofClient_eq_nil fd_of_exchanges hfd, List.append_nil]
  constructor
  · rw [hall, ← h.replies]
    simp [Loop.handle, Ne.symm hfd]
  · rw [hall]
    simpa [Loop.handle, Ne.symm hfd, receivedFrom, hfd] using h.takes

theorem conversed_of_reaches {earlier : List LoopEvent}
    (hstart : (loopSystem cfg).Reaches earlier start) (hreplies : (start.clients fd).replies = [])
    (hr : ((loopSystem cfg).startAt start).Reaches events l)
    (honce : LoopEvent.accept fd ∉ events) : Conversed cfg fd start events l := by
  induction hr with
  | start hs =>
    obtain rfl : _ = start := hs
    exact ⟨by simp [hreplies, Loop.trace, ofClient], fun p hp => ⟨p, hp, takes_nil p⟩⟩
  | @next h l l' e hr hstep ih =>
    rw [List.mem_cons, not_or] at honce
    have hafter := after_of_reaches hr
    cases hstep with
    | @accept fd' closed => exact (ih honce.2).accept fun heq => honce.1 (by rw [heq])
    | @ready fd' flags script isOpen =>
      by_cases hfd : fd' = fd
      · subst hfd
        exact (ih honce.2).ready_own hafter (sound_of_reaches hstart fd')
          (sound_of_reaches (hstart.append_startAt hr) fd')
      · exact (ih honce.2).ready_other hafter hfd

end

/-- The first argument of a frame is there, and is not empty. -/
def HasVerb : List Bytes → Prop
  | [] | [] :: _ => False
  | _ => True

instance : DecidablePred HasVerb
  | [] | [] :: _ => isFalse not_false
  | (_ :: _) :: _ => isTrue trivial

theorem blank_classify (args : List Bytes) : Blank (classify args) ↔ ¬ HasVerb args := by
  match args with
  | [] => exact iff_of_true ⟨rfl, rfl⟩ not_false
  | [] :: args => exact iff_of_true ⟨rfl, rfl⟩ not_false
  | (c :: verb) :: args => exact iff_of_false (fun h => nomatch h.2) (not_not.mpr trivial)

/-- The reply to `GET` has the value that the store holds when the command is executed. -/
theorem response_get {env : Env} {fault : Option Fault} {cmd : Command} {key : Bytes}
    {args : List Bytes} (htype : cmd.type = .get) (hargs : cmd.args = key :: args) (s : Storage) :
    (executeCommand cfg env fault cmd s).response =
      (s.get env.now key).1.elim { head := ascii "$-1" } bulk := by
  simp only [executeCommand, htype, hargs]
  rcases s.get env.now key with ⟨_ | blob, t⟩ <;> rfl

/-- While a connection stays open, its commands are those of the frames it has sent, in order,
without the frames that have no verb, and each has one reply: the response to it on the store that
the commands before it and the sweeper left. The replies are what has been written and what is in
the outbox. -/
theorem replies_in_order {earlier later : List LoopEvent} {start l : Loop}
    (hstart : (loopSystem cfg).Reaches earlier start) (hclosed : (start.clients fd).isOpen = false)
    (hr : ((loopSystem cfg).startAt (start.accept cfg fd)).Reaches later l)
    (honce : LoopEvent.accept fd ∉ later) (hopen : (l.clients fd).isOpen = true) :
    let trace := (start.accept cfg fd).trace cfg later
    Served cfg start.storage trace l.storage ∧
      (∃ frames stream rest, receivedFrom fd later = stream ++ rest ∧
        Parser.Accepted (fun _ => true) (parseLimit cfg start.storage) frames stream ∧
        Parser.Longest (fun _ => true) (parseLimit cfg start.storage) (receivedFrom fd later)
          frames stream ∧
        (ofClient fd trace).map Exchange.command =
          (frames.filter fun args => HasVerb args).map classify) ∧
      (l.clients fd).replies = (ofClient fd trace).map (fun x => x.response.frame) ∧
      (l.clients fd).written ++ unsent ((l.clients fd).outbox.getD []) =
        (l.clients fd).replies.flatten ∧
      ∀ before x after key args, trace = before ++ x :: after → x.command.type = .get →
        x.command.args = key :: args → ∃ t, Served cfg start.storage before t ∧
          x.response = ((sweep t x.around.steps).get x.around.env.now key).1.elim
            { head := ascii "$-1" } bulk := by
  intro trace
  have hparser : (start.clients fd).parser = none := by
    cases sound_of_reaches hstart fd with
    | live h => simp [h.isOpen] at hclosed
    | ended h => exact h.parser
  have hinit : ((start.accept cfg fd).clients fd).parser =
      some (Parser.init (parseLimit cfg start.storage)) := by
    simp [Loop.accept, acceptClient, hparser]
  have haccepted := hstart.next (.accept hclosed)
  have hserved : Served cfg start.storage trace l.storage := served_trace hr
  obtain ⟨hreplies, htakes⟩ := conversed_of_reaches haccepted
    (by simp [Loop.accept, acceptClient]) hr honce
  have hlive : (l.clients fd).Live := by
    cases sound_of_reaches (haccepted.append_startAt hr) fd with
    | live h => exact h
    | ended h => simp [h.isOpen] at hopen
  obtain ⟨p', hp', -⟩ := hlive.parser
  obtain ⟨p, hp, hcommands, -⟩ := htakes p' hp'
  obtain rfl := Option.some.inj (hinit.symm.trans hp)
  refine ⟨hserved, ?_, hreplies, hlive.balance, ?_⟩
  · obtain ⟨frames, stream, rest, h⟩ : ∃ frames stream rest, Parser.Taken (fun _ => true)
        (Parser.init (parseLimit cfg start.storage)) (receivedFrom fd later) frames stream rest :=
      Parser.taken _ (Parser.fresh_init _) _
    refine ⟨frames, stream, rest, h.split, h.accepted, h.longest, ?_⟩
    rw [← hcommands, h.commands, List.filter_map]
    refine congrArg (List.map classify) (List.filter_congr fun args _ => ?_)
    simp [blank_classify]
  · intro before x after key args htrace htype hargs
    rw [htrace] at hserved
    obtain ⟨t, ht, hresponse⟩ := hserved.split
    exact ⟨t, ht, hresponse.trans (response_get htype hargs _)⟩

/-- The loop before its first event. -/
def idle : Loop := ⟨fun _ => {}, Storage.init 1 1024 8⟩

/-- A client that sets `k` and reads it, without waiting. -/
def pipelined : Script where
  recvs := [.data (ascii "*3\r\n$3\r\nSET\r\n$1\r\nk\r\n$1\r\nv\r\n*2\r\n$3\r\nGET\r\n$1\r\nk\r\n")]
  commands k := { steps := [.collect k], env := ⟨k, 1, 0⟩ }
  alloc _ := true

/-- It reads what the store holds behind its `SET`. -/
theorem replies_pipelined : ∃ t, Served ⟨false, 8, fun _ => []⟩ idle.storage
      [⟨7, ⟨.set, ascii "SET", [ascii "k", ascii "v"]⟩, pipelined.commands 0,
        { head := ascii "+OK" }⟩] t ∧
    bulk (ascii "v") = ((sweep t [.collect 1]).get 1 (ascii "k")).1.elim
      { head := ascii "$-1" } bulk := by
  have hidle : (loopSystem ⟨false, 8, fun _ => []⟩).Reaches [] idle := .start fun _ => rfl
  have hrun : ((loopSystem ⟨false, 8, fun _ => []⟩).startAt
      (idle.accept ⟨false, 8, fun _ => []⟩ 7)).Reaches
        [.ready 7 ⟨true, false, false⟩ pipelined] _ :=
    .next (.start rfl) (.ready rfl)
  have htrace : (idle.accept ⟨false, 8, fun _ => []⟩ 7).trace ⟨false, 8, fun _ => []⟩
      [.ready 7 ⟨true, false, false⟩ pipelined] =
        [⟨7, ⟨.set, ascii "SET", [ascii "k", ascii "v"]⟩, pipelined.commands 0,
          { head := ascii "+OK" }⟩] ++
        [⟨7, ⟨.get, ascii "GET", [ascii "k"]⟩, pipelined.commands 1, bulk (ascii "v")⟩] := by
    decide +kernel
  obtain ⟨-, -, -, -, hget⟩ := replies_in_order hidle rfl hrun (by simp) (by decide +kernel)
  exact hget _ _ _ _ _ htrace rfl rfl

/-- A client that sends the frame of an empty argument. -/
def emptyVerb : Script where
  recvs := [.data (ascii "*1\r\n$0\r\n\r\n")]
  commands _ := { env := ⟨0, 1, 0⟩ }
  alloc _ := true

/-- The loop after the client's first event. -/
def afterEmptyVerb : Loop :=
  (idle.accept ⟨false, 8, fun _ => []⟩ 7).handle ⟨false, 8, fun _ => []⟩ 7 ⟨true, false, false⟩
    emptyVerb

theorem reaches_emptyVerb :
    ((loopSystem ⟨false, 8, fun _ => []⟩).startAt (idle.accept ⟨false, 8, fun _ => []⟩ 7)).Reaches
      [.ready 7 ⟨true, false, false⟩ emptyVerb] afterEmptyVerb :=
  .next (.start rfl) (.ready rfl)

/-- Its connection stays open, its frame has an argument, and there is no reply. -/
theorem emptyVerb_not_replied :
    let sent := ascii "*1\r\n$0\r\n\r\n"
    ((loopSystem ⟨false, 8, fun _ => []⟩).startAt (idle.accept ⟨false, 8, fun _ => []⟩ 7)).Reaches
        [.ready 7 ⟨true, false, false⟩ emptyVerb] afterEmptyVerb ∧
      receivedFrom 7 [.ready 7 ⟨true, false, false⟩ emptyVerb] = sent ∧
      Frames (parseLimit ⟨false, 8, fun _ => []⟩ idle.storage) [[[]]] sent ∧
      (afterEmptyVerb.clients 7).isOpen = true ∧ (afterEmptyVerb.clients 7).replies = [] := by
  intro sent
  have hbulk : IsBulk (parseLimit ⟨false, 8, fun _ => []⟩ idle.storage) [] (ascii "$0\r\n\r\n") :=
    ⟨⟨ascii "$0\r\n", CRLF, by decide,
      ⟨[48], CRLF, by decide, Or.inr rfl, by decide +kernel⟩, Or.inr rfl⟩, Nat.zero_le _⟩
  have hframe : IsFrame (parseLimit ⟨false, 8, fun _ => []⟩ idle.storage) [[]] sent :=
    ⟨⟨ascii "*1\r\n", ascii "$0\r\n\r\n" ++ [], by decide,
      ⟨[49], CRLF, by decide, Or.inr rfl, by decide +kernel⟩, .cons hbulk .nil⟩, by decide⟩
  refine ⟨reaches_emptyVerb, by decide, ?_, by decide, by decide⟩
  exact .cons hframe .nil

end Server

end PolyCache
