import PolyCache.Server.Connection

/-!
# The connection tables

`parsers_`, `watch_flags_` and `outbox_` are updated by different functions, and `close_client` may
run deep inside the handler that works on them. After each event the three tables agree with the
open descriptors and with what `epoll` was told, and no handler has used an entry that
`close_client` had removed.
-/

namespace PolyCache

open Protocol

namespace Server

variable (cfg : Config) (alloc : Nat → Bool) (commands : Nat → Surroundings) {c : Client} {r : Run}

/-! ## What the tables hold for a descriptor -/

/-- The tables have the descriptor if and only if it is open; only an open one has an outbox. -/
structure Client.Filed (c : Client) : Prop where
  parser : c.parser.isSome = c.isOpen
  watch : c.watch.isSome = c.isOpen
  interest : c.interest = c.watch
  outbox : c.outbox.isSome = true → c.isOpen = true
  bound : ∀ queue, c.outbox = some queue → queue.length ≤ kMaxQueuedChunks

/-- `EPOLLOUT` is watched if and only if there is something to send. -/
def Client.Armed (c : Client) : Prop :=
  c.isOpen = true → (c.watch = some true ↔ ∃ queue, c.outbox = some queue ∧ queue ≠ [])

structure Client.Tabled (c : Client) : Prop extends c.Filed where
  armed : c.Armed

theorem tabled_closeClient (c : Client) : (closeClient c).Tabled :=
  ⟨⟨rfl, rfl, rfl, nofun, nofun⟩, nofun⟩

theorem Client.Tabled.setParser (h : c.Tabled) {p q : Parser} (hp : c.parser = some p) :
    Client.Tabled { c with parser := some q } where
  parser := by rw [← h.parser, hp]; rfl
  watch := h.watch
  interest := h.interest
  outbox := h.outbox
  bound := h.bound
  armed := h.armed

/-- `update_watch` arms an open client. -/
theorem tabled_updateWatch (h : c.Filed) (hopen : c.isOpen = true) : (updateWatch c).Tabled := by
  have hflags : (c.outbox.any fun queue => !queue.isEmpty) = true ↔
      ∃ queue, c.outbox = some queue ∧ queue ≠ [] := by
    cases c.outbox <;> simp
  have hwatched : c.interest.isSome = true := by rw [h.interest, h.watch, hopen]
  obtain ⟨told, htold⟩ := Option.isSome_iff_exists.mp hwatched
  unfold updateWatch
  dsimp only
  split_ifs with hsame
  · exact ⟨h, fun _ => by rw [hsame, Option.some.injEq, hflags]⟩
  · refine ⟨⟨h.parser, hopen.symm, by simp [htold], h.outbox, h.bound⟩, fun _ => ?_⟩
    rw [Option.some.injEq, hflags]

/-! ## Sending -/

/-- Sending only shortens the queue. -/
theorem length_sendLoop (sends : List SendResult) (queue : List OutChunk) (written : Bytes) :
    (sendLoop sends queue written).queue.length ≤ queue.length := by
  have hdrop : ∀ queue : List OutChunk,
      (queue.dropWhile fun c => c.part = .done).length ≤ queue.length :=
    fun queue => (List.dropWhile_sublist _).length_le
  fun_induction sendLoop sends queue written with
  | case1 queue written => exact hdrop queue
  | case2 result sends queue written hqueue => exact Nat.zero_le _
  | case3 sends queue written chunk queue' hqueue => exact hqueue ▸ hdrop queue
  | case4 sends queue written chunk queue' hqueue => exact hqueue ▸ hdrop queue
  | case5 sends queue written chunk queue' hqueue n hn sent ih =>
    exact ih.trans (by simpa [hqueue] using hdrop queue)
  | case6 sends queue written chunk queue' hqueue => exact hqueue ▸ hdrop queue
  | case7 sends queue written chunk queue' hqueue ih => exact ih.trans (hqueue ▸ hdrop queue)

theorem tabled_trySend (h : c.Filed) (harmed : c.outbox = none → c.Armed)
    (sends : List SendResult) : (trySend c sends).1.Tabled := by
  unfold trySend
  cases hqueue : c.outbox with
  | none => exact ⟨h, harmed hqueue⟩
  | some queue =>
    have hopen : c.isOpen = true := h.outbox (by simp [hqueue])
    have hlength := length_sendLoop sends queue c.written
    have hfiled : Client.Filed { c with
        outbox := if (sendLoop sends queue c.written).queue = [] then none
          else some (sendLoop sends queue c.written).queue
        written := (sendLoop sends queue c.written).written } := by
      refine ⟨h.parser, h.watch, h.interest, fun _ => hopen, fun rest hrest => ?_⟩
      dsimp only at hrest
      split_ifs at hrest
      cases hrest
      exact hlength.trans (h.bound queue hqueue)
    dsimp only
    split
    · exact tabled_closeClient _
    · exact tabled_updateWatch hfiled hopen

theorem tabled_queueResponse (h : c.Tabled) (hopen : c.isOpen = true) (response : Response)
    (sends : List SendResult) : (queueResponse c response sends).1.Tabled := by
  simp only [queueResponse]
  split_ifs with hfull
  · exact tabled_closeClient _
  · refine tabled_trySend ?_ (by simp) sends
    refine ⟨h.parser, h.watch, h.interest, fun _ => hopen, fun queue hqueue => ?_⟩
    cases hqueue
    exact Nat.not_lt.mp hfull

/-! ## Receiving -/

theorem tabled_runCommand (h : r.client.Tabled) (hopen : r.client.isOpen = true) (cmd : Command) :
    (runCommand cfg commands r cmd).client.Tabled := by
  simp only [runCommand]
  split_ifs
  · exact h
  · exact tabled_queueResponse h hopen _ _

theorem tabled_takeBuffer (rounds : Nat) (data : Bytes) (h : r.client.Tabled) :
    (takeBuffer cfg alloc commands rounds r data).1.client.Tabled := by
  induction rounds generalizing r data with
  | zero => exact h
  | succ rounds ih =>
    rw [takeBuffer]
    split_ifs with hdata
    · exact h
    · cases hparser : r.client.parser with
      | none => exact h
      | some parser =>
        dsimp only
        cases hconsume : parser.consume alloc data with
        | needMore parser' rest => exact h.setParser hparser
        | error parser' rest => exact tabled_closeClient _
        | ready cmd parser' rest =>
          have hopen : r.client.isOpen = true := by rw [← h.parser, hparser]; rfl
          have hrun := tabled_runCommand cfg commands
            (r := { r with client.parser := some parser' }) (h.setParser hparser) hopen cmd
          dsimp only
          split_ifs
          · exact hrun
          · exact ih rest hrun

theorem tabled_handleReadable (recvs : List RecvResult) (h : r.client.Tabled) :
    (handleReadable cfg alloc commands recvs r).client.Tabled := by
  fun_induction handleReadable cfg alloc commands recvs r with
  | case1 r => exact h
  | case2 r => exact h
  | case3 r recvs ih => exact ih h
  | case4 r => exact tabled_closeClient _
  | case5 r => exact tabled_closeClient _
  | case6 c bytes recvs r hnone => exact h
  | case7 c bytes recvs r hnone r' hbuffer =>
    have htabled := tabled_takeBuffer cfg alloc commands ((c :: bytes).length + 1) (c :: bytes) h
    rwa [hbuffer] at htabled
  | case8 c bytes recvs r hnone r' hbuffer ih =>
    have htabled := tabled_takeBuffer cfg alloc commands ((c :: bytes).length + 1) (c :: bytes) h
    rw [hbuffer] at htabled
    exact ih htabled

theorem tabled_handleEvent (flags : Flags) (recvs : List RecvResult) (h : r.client.Tabled) :
    (handleEvent cfg alloc commands flags recvs r).client.Tabled := by
  by_cases hhangup : flags.hangup ∧ ¬ flags.readable
  · rw [handleEvent, if_pos hhangup]
    exact tabled_closeClient _
  · rw [handleEvent, if_neg hhangup]
    have hread : (if flags.readable then handleReadable cfg alloc commands recvs r
        else r).client.Tabled := by
      split_ifs
      · exact tabled_handleReadable cfg alloc commands recvs h
      · exact h
    generalize (if flags.readable then handleReadable cfg alloc commands recvs r else r) = r' at *
    have hsent := tabled_trySend hread.toFiled (fun _ => hread.armed) r'.sends
    dsimp only
    split_ifs
    · exact hread
    · exact tabled_closeClient _
    · exact hsent
    · exact tabled_closeClient _
    · exact hread

/-! ## References

The same handlers once more, where each use of an entry through a reference, an iterator or
`operator[]` fails if the entry is gone. -/

/-- The loop of `try_send` on the outbox that its iterator refers to. -/
def sendTurns : List SendResult → Client → Option (Client × List SendResult)
  | [], c =>
    match c.outbox with
    | none => none
    | some queue =>
      let queue := queue.dropWhile fun chunk => chunk.part = .done
      some (updateWatch { c with outbox := if queue = [] then none else some queue }, [])
  | result :: sends, c =>
    match c.outbox with
    | none => none
    | some queue =>
      match queue.dropWhile fun chunk => chunk.part = .done with
      | [] => some (updateWatch { c with outbox := none }, result :: sends)
      | chunk :: queue =>
        match result with
        | .sent 0 | .failed => some (closeClient { c with outbox := some (chunk :: queue) }, sends)
        | .sent n =>
          let sent := min n chunk.offered.length
          sendTurns sends { c with
            outbox := some (chunk.advance sent :: queue)
            written := c.written ++ chunk.offered.take sent }
        | .again => some (updateWatch { c with outbox := some (chunk :: queue) }, sends)
        | .intr => sendTurns sends { c with outbox := some (chunk :: queue) }

def trySendChecked (c : Client) (sends : List SendResult) : Option (Client × List SendResult) :=
  if c.outbox.isNone then some (c, sends) else sendTurns sends c

/-- `outbox_[fd]` would make an entry for a client that is gone. -/
def queueResponseChecked (c : Client) (response : Response) (sends : List SendResult) :
    Option (Client × List SendResult) :=
  let response := response.complete
  let chunk : OutChunk := { head := response.head, blob := response.blob, tail := response.tail }
  let queue := c.outbox.getD [] ++ [chunk]
  let c := { c with outbox := some queue, replies := c.replies ++ [response.bytes] }
  if c.isOpen = false then none
  else if queue.length > kMaxQueuedChunks then some (closeClient c, sends)
  else trySendChecked c sends

def runCommandChecked (r : Run) (cmd : Command) : Option Run :=
  if cmd.type = .unknown ∧ cmd.verb = [] then some r
  else do
    let around := commands r.executed
    let outcome := executeCommand cfg around.env around.fault cmd (sweep r.storage around.steps)
    let (client, sends) ← queueResponseChecked r.client outcome.response r.sends
    some ⟨client, outcome.storage, sends, r.executed + 1⟩

/-- The loop over a received buffer, on the parser that was found before it. -/
def takeBufferChecked : Nat → Run → Bytes → Option (Run × Bool)
  | 0, r, _ => some (r, false)
  | rounds + 1, r, data =>
    if data = [] then some (r, false)
    else do
      let parser ← r.client.parser
      match parser.consume alloc data with
      | .needMore parser _ => some ({ r with client.parser := some parser }, false)
      | .error parser _ =>
        let (client, sends) := sendError { r.client with parser := some parser }
          (protocolError parser.error) r.sends
        some ({ r with client := closeClient client, sends := sends }, true)
      | .ready cmd parser rest =>
        let r ← runCommandChecked cfg commands { r with client.parser := some parser } cmd
        if r.client.parser.isNone then some (r, true) else takeBufferChecked rounds r rest

def handleReadableChecked : List RecvResult → Run → Option Run
  | [], r | .again :: _, r => some r
  | .intr :: recvs, r => handleReadableChecked recvs r
  | .failed :: _, r | .data [] :: _, r => some { r with client := closeClient r.client }
  | .data (c :: bytes) :: recvs, r =>
    if r.client.parser.isNone then some r
    else do
      match ← takeBufferChecked cfg alloc commands ((c :: bytes).length + 1) r (c :: bytes) with
      | (r, true) => some r
      | (r, false) => handleReadableChecked recvs r

def handleEventChecked (flags : Flags) (recvs : List RecvResult) (r : Run) : Option Run :=
  if flags.hangup ∧ ¬ flags.readable then some { r with client := closeClient r.client }
  else do
    let r ← if flags.readable then handleReadableChecked cfg alloc commands recvs r else some r
    if flags.readable ∧ r.client.parser.isNone then some r
    else do
      let r ← if flags.writable then do
          let (client, sends) ← trySendChecked r.client r.sends
          some { r with client := client, sends := sends }
        else some r
      if flags.hangup ∧ r.client.parser.isSome then some { r with client := closeClient r.client }
      else some r

theorem sendTurns_eq {sends : List SendResult} {queue : List OutChunk}
    (h : c.outbox = some queue) : sendTurns sends c = some (trySend c sends) := by
  fun_induction sendTurns sends c generalizing queue with
  | case1 c hnone => simp [hnone] at h
  | case2 c queue' hqueue =>
    simp only [trySend, sendLoop, hqueue]
    rfl
  | case3 result sends c hnone => simp [hnone] at h
  | case4 result sends c queue' hqueue hdone => simp [trySend, sendLoop, hqueue, hdone]
  | case5 sends c queue' hqueue chunk rest hdone =>
    simp [trySend, sendLoop, hqueue, hdone, closeClient]
  | case6 sends c queue' hqueue chunk rest hdone =>
    simp [trySend, sendLoop, hqueue, hdone, closeClient]
  | case7 sends c queue' hqueue chunk rest hdone n hn sent =>
    rename_i ih
    rw [ih rfl]
    simp [trySend, sendLoop, hqueue, hdone, sent]
  | case8 sends c queue' hqueue chunk rest hdone => simp [trySend, sendLoop, hqueue, hdone]
  | case9 sends c queue' hqueue chunk rest hdone ih =>
    rw [ih rfl]
    simp [trySend, sendLoop, hqueue, hdone]

theorem trySendChecked_eq (c : Client) (sends : List SendResult) :
    trySendChecked c sends = some (trySend c sends) := by
  unfold trySendChecked
  cases houtbox : c.outbox with
  | none => simp [trySend, houtbox]
  | some queue => exact sendTurns_eq houtbox

theorem queueResponseChecked_eq (hopen : c.isOpen = true) (response : Response)
    (sends : List SendResult) :
    queueResponseChecked c response sends = some (queueResponse c response sends) := by
  simp only [queueResponseChecked, queueResponse, hopen, reduceCtorEq, if_false]
  split_ifs
  · rfl
  · exact trySendChecked_eq _ _

theorem runCommandChecked_eq (hopen : r.client.isOpen = true) (cmd : Command) :
    runCommandChecked cfg commands r cmd = some (runCommand cfg commands r cmd) := by
  unfold runCommandChecked runCommand
  split_ifs
  · rfl
  · simp only [queueResponseChecked_eq hopen, Option.bind_eq_bind, Option.bind_some]

theorem takeBufferChecked_eq (rounds : Nat) (data : Bytes) (h : r.client.Tabled)
    (hparser : r.client.parser.isSome = true) :
    takeBufferChecked cfg alloc commands rounds r data =
      some (takeBuffer cfg alloc commands rounds r data) := by
  induction rounds generalizing r data with
  | zero => rfl
  | succ rounds ih =>
    rw [takeBufferChecked, takeBuffer]
    split_ifs with hdata
    · rfl
    · obtain ⟨parser, hparser⟩ := Option.isSome_iff_exists.mp hparser
      simp only [hparser, Option.bind_eq_bind, Option.bind_some]
      cases hconsume : parser.consume alloc data with
      | needMore parser' rest => rfl
      | error parser' rest => rfl
      | ready cmd parser' rest =>
        have hopen : r.client.isOpen = true := by rw [← h.parser, hparser]; rfl
        have hrun := tabled_runCommand cfg commands
          (r := { r with client.parser := some parser' }) (h.setParser hparser) hopen cmd
        have hcmd := runCommandChecked_eq cfg commands
          (r := { r with client.parser := some parser' }) hopen cmd
        dsimp only at hcmd ⊢
        rw [hcmd, Option.bind_some]
        split_ifs with hgone
        · rfl
        · exact ih rest hrun (Option.isSome_iff_ne_none.mpr (by simpa using hgone))

theorem handleReadableChecked_eq (recvs : List RecvResult) (h : r.client.Tabled) :
    handleReadableChecked cfg alloc commands recvs r =
      some (handleReadable cfg alloc commands recvs r) := by
  fun_induction handleReadable cfg alloc commands recvs r with
  | case1 r => rfl
  | case2 r => rfl
  | case3 r recvs ih => exact ih h
  | case4 r => rfl
  | case5 r => rfl
  | case6 c bytes recvs r hnone => rw [handleReadableChecked, if_pos hnone]
  | case7 c bytes recvs r hnone r' hbuffer =>
    have hparser : r.client.parser.isSome = true :=
      Option.isSome_iff_ne_none.mpr (by simpa using hnone)
    rw [handleReadableChecked, if_neg hnone, takeBufferChecked_eq cfg alloc commands _ _ h hparser,
      hbuffer]
    rfl
  | case8 c bytes recvs r hnone r' hbuffer ih =>
    have hparser : r.client.parser.isSome = true :=
      Option.isSome_iff_ne_none.mpr (by simpa using hnone)
    have htabled := tabled_takeBuffer cfg alloc commands ((c :: bytes).length + 1) (c :: bytes) h
    rw [hbuffer] at htabled
    rw [handleReadableChecked, if_neg hnone, takeBufferChecked_eq cfg alloc commands _ _ h hparser,
      hbuffer]
    exact ih htabled

theorem handleEventChecked_eq (flags : Flags) (recvs : List RecvResult) (h : r.client.Tabled) :
    handleEventChecked cfg alloc commands flags recvs r =
      some (handleEvent cfg alloc commands flags recvs r) := by
  have hread := handleReadableChecked_eq cfg alloc commands recvs h
  unfold handleEventChecked handleEvent
  simp only [hread, trySendChecked_eq, Option.bind_eq_bind, Option.bind_some]
  split_ifs <;> rfl

/-! ## The event loop -/

variable {cfg} {events : List LoopEvent} {l l' : Loop} {e : LoopEvent}

theorem tabled_acceptClient (s : Storage) (h : c.Tabled) (hclosed : c.isOpen = false) :
    (acceptClient cfg s c).Tabled := by
  have houtbox : c.outbox = none := by
    rw [← Option.not_isSome_iff_eq_none]
    exact fun hsome => by simp [h.outbox hsome] at hclosed
  refine ⟨⟨rfl, rfl, rfl, fun _ => rfl, ?_⟩, fun _ => ?_⟩ <;> simp [acceptClient, houtbox]

theorem tabled_step (h : ∀ fd, (l.clients fd).Tabled) (hs : Loop.Step cfg l e l') :
    ∀ fd, (l'.clients fd).Tabled := by
  intro fd'
  cases hs with
  | @accept fd closed =>
    by_cases hfd : fd' = fd
    · subst hfd
      simpa [Loop.accept] using tabled_acceptClient l.storage (h fd') closed
    · simpa [Loop.accept, hfd] using h fd'
  | @ready fd flags script isOpen =>
    by_cases hfd : fd' = fd
    · subst hfd
      simpa [Loop.handle] using
        tabled_handleEvent cfg script.alloc script.commands flags script.recvs (h fd')
    · simpa [Loop.handle, hfd] using h fd'

theorem tabled_of_reaches (hr : (loopSystem cfg).Reaches events l) (fd : Nat) :
    (l.clients fd).Tabled := by
  refine hr.stateInvariant (P := fun l => ∀ fd, (l.clients fd).Tabled) (fun l hl fd => ?_)
    (fun _ _ _ h hs => tabled_step h hs) fd
  rw [hl fd]
  exact tabled_closeClient {}

/-- After every event the tables agree with the open descriptors and with `epoll`; a descriptor
that is accepted next starts afresh, and no handler uses an entry that is gone. -/
theorem tables_of_reaches (hr : (loopSystem cfg).Reaches events l) :
    (∀ fd, (l.clients fd).Tabled) ∧
    (∀ fd, (l.clients fd).isOpen = false →
      ((l.accept cfg fd).clients fd).parser =
          some (Parser.init (parseLimit cfg l.storage)) ∧
        ((l.accept cfg fd).clients fd).outbox = none) ∧
    ∀ fd flags (script : Script),
      let r : Run := ⟨l.clients fd, l.storage, script.sends, 0⟩
      handleEventChecked cfg script.alloc script.commands flags script.recvs r =
        some (handleEvent cfg script.alloc script.commands flags script.recvs r) := by
  have htabled : ∀ fd, (l.clients fd).Tabled := by
    refine hr.stateInvariant (P := fun l => ∀ fd, (l.clients fd).Tabled) (fun l hl fd => ?_)
      fun _ _ _ h hs => tabled_step h hs
    rw [hl fd]
    exact tabled_closeClient {}
  refine ⟨htabled, fun fd hclosed => ?_, fun fd flags script => ?_⟩
  · have hnone : (l.clients fd).parser = none := by
      rw [← Option.not_isSome_iff_eq_none, (htabled fd).parser, hclosed]
      exact Bool.false_ne_true
    have houtbox : (l.clients fd).outbox = none := by
      rw [← Option.not_isSome_iff_eq_none]
      exact fun hsome => by simp [(htabled fd).outbox hsome] at hclosed
    simp [Loop.accept, acceptClient, hnone, houtbox]
  · exact handleEventChecked_eq cfg script.alloc script.commands flags script.recvs (htabled fd)

/-- A client that sends `PING` to a server that cannot send yet. -/
def unsentPing : Loop :=
  let cfg : Config := ⟨false, 8, fun _ => []⟩
  (Loop.accept cfg ⟨fun _ => {}, Storage.init 1 1024 8⟩ 7).handle cfg 7 ⟨true, false, false⟩
    { recvs := [.data (ascii "*1\r\n$4\r\nPING\r\n")], commands _ := { env := ⟨0, 1, 0⟩ },
      alloc _ := true }

theorem unsentPing_tables :
    (∀ fd, (unsentPing.clients fd).Tabled) ∧ (unsentPing.clients 7).watch = some true :=
  ⟨(tables_of_reaches (.next (.next (.start fun _ => rfl) (.accept rfl)) (.ready rfl))).1,
    by decide⟩

end Server

end PolyCache
