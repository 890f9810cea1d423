import Mathlib.Logic.Function.Basic
import PolyCache.Library.Transition
import PolyCache.Server.Command

/-!
# Connections

The event loop of `src/server.cpp`. The maps `parsers_`, `outbox_` and `watch_flags_` are kept by
descriptor: a `Client` is what they hold for one, with the kernel's side of it. The kernel, the
clock, the allocator and the sweeper thread decide the rest: an event comes with the `Script` of
their answers, and where it ends, `recv` and `send` would block. What a client has been promised and
how its parser failed are recorded beside the program's own data.
-/

namespace PolyCache

open Protocol

namespace Server

/-! ## The outbox -/

structure OutChunk where
  head : Bytes
  headSent : Nat := 0
  blob : Option Bytes
  blobSent : Nat := 0
  tail : Bytes
  tailSent : Nat := 0
  deriving DecidableEq, Repr

inductive Part where
  | head | blob | tail | done
  deriving DecidableEq, Repr

namespace OutChunk

def part (c : OutChunk) : Part :=
  if c.headSent < c.head.length then .head
  else if c.blob.isSome ∧ c.blobSent < (c.blob.getD []).length then .blob
  else if c.tailSent < c.tail.length then .tail
  else .done

/-- The bytes that are given to `send`. -/
def offered (c : OutChunk) : Bytes :=
  match c.part with
  | .head => c.head.drop c.headSent
  | .blob => (c.blob.getD []).drop c.blobSent
  | .tail => c.tail.drop c.tailSent
  | .done => []

def advance (c : OutChunk) (sent : Nat) : OutChunk :=
  match c.part with
  | .head => { c with headSent := c.headSent + sent }
  | .blob => { c with blobSent := c.blobSent + sent }
  | .tail => { c with tailSent := c.tailSent + sent }
  | .done => c

/-- What has not been sent yet. -/
def rest (c : OutChunk) : Bytes :=
  c.head.drop c.headSent ++ (c.blob.getD []).drop c.blobSent ++ c.tail.drop c.tailSent

end OutChunk

def unsent (queue : List OutChunk) : Bytes := queue.flatMap OutChunk.rest

/-! ## Clients -/

/-- How a parser failed: the error line, what the outbox had not sent, and how much of the line
`send` took. -/
structure Failure where
  line : Bytes
  unsent : Bytes
  taken : Nat
  deriving DecidableEq, Repr

structure Client where
  parser : Option Parser := none
  outbox : Option (List OutChunk) := none
  /-- `watch_flags_`: whether `EPOLLOUT` is in it -/
  watch : Option Bool := none
  /-- the descriptor is open -/
  isOpen : Bool := false
  /-- what `epoll` was told last -/
  interest : Option Bool := none
  /-- the bytes that `send` has taken -/
  written : Bytes := []
  /-- the framed responses of the commands parsed so far -/
  replies : List Bytes := []
  failure : Option Failure := none
  deriving DecidableEq, Repr

def closeClient (c : Client) : Client :=
  { c with parser := none, outbox := none, watch := none, isOpen := false, interest := none }

def updateWatch (c : Client) : Client :=
  let flags := c.outbox.any fun queue => !queue.isEmpty
  if c.watch = some flags then c
  else { c with watch := some flags, interest := c.interest.map fun _ => flags }

/-! ## Sending -/

/-- `sent 0` is a `send` that returns zero. -/
inductive SendResult where
  | sent (n : Nat)
  | again | intr | failed
  deriving DecidableEq, Repr

structure SendRun where
  queue : List OutChunk
  written : Bytes
  sends : List SendResult
  failed : Bool
  deriving DecidableEq, Repr

/-- The loop of `try_send`. Chunks that are done are popped before the next one is offered. -/
def sendLoop : List SendResult → List OutChunk → Bytes → SendRun
  | [], queue, written => ⟨queue.dropWhile fun c => c.part = .done, written, [], false⟩
  | result :: sends, queue, written =>
    match queue.dropWhile fun c => c.part = .done with
    | [] => ⟨[], written, result :: sends, false⟩
    | chunk :: queue =>
      match result with
      | .sent 0 | .failed => ⟨chunk :: queue, written, sends, true⟩
      | .sent n =>
        let sent := min n chunk.offered.length
        sendLoop sends (chunk.advance sent :: queue) (written ++ chunk.offered.take sent)
      | .again => ⟨chunk :: queue, written, sends, false⟩
      | .intr => sendLoop sends (chunk :: queue) written

def trySend (c : Client) (sends : List SendResult) : Client × List SendResult :=
  match c.outbox with
  | none => (c, sends)
  | some queue =>
    let run := sendLoop sends queue c.written
    let c := { c with
      outbox := if run.queue = [] then none else some run.queue
      written := run.written }
    (if run.failed then closeClient c else updateWatch c, run.sends)

def kMaxQueuedChunks : Nat := 1024

def queueResponse (c : Client) (response : Response) (sends : List SendResult) :
    Client × List SendResult :=
  let response := response.complete
  let chunk : OutChunk := { head := response.head, blob := response.blob, tail := response.tail }
  let queue := c.outbox.getD [] ++ [chunk]
  let c := { c with outbox := some queue, replies := c.replies ++ [response.bytes] }
  if queue.length > kMaxQueuedChunks then (closeClient c, sends) else trySend c sends

/-! ## Receiving -/

/-- `data []` is the end of the stream. -/
inductive RecvResult where
  | data (bytes : Bytes)
  | again | intr | failed
  deriving DecidableEq, Repr

/-- What the sweeper thread does to the store. -/
inductive SweepStep where
  | collect (now : Nat)
  | expire (key : Bytes)
  deriving DecidableEq, Repr

def sweep (s : Storage) (steps : List SweepStep) : Storage :=
  steps.foldl (fun s step =>
    match step with
    | .collect now => (s.collectExpired now).2
    | .expire key => s.expireKey key) s

/-- What a command finds: the sweeper's steps since the last one, and its own surroundings. -/
structure Surroundings where
  steps : List SweepStep := []
  env : Env
  fault : Option Fault := none
  deriving DecidableEq

structure Script where
  recvs : List RecvResult := []
  sends : List SendResult := []
  commands : Nat → Surroundings
  alloc : Nat → Bool

/-- A client in the course of an event, with the rest of the script. `executed` counts the commands
of the event. -/
structure Run where
  client : Client
  storage : Storage
  sends : List SendResult
  executed : Nat := 0

variable (cfg : Config) (alloc : Nat → Bool) (commands : Nat → Surroundings)

def protocolError (error : Bytes) : Bytes := ascii "-ERR Protocol error: " ++ error ++ CRLF

/-- The direct `send` of the error line, whose result is ignored. -/
def sendError (c : Client) (line : Bytes) (sends : List SendResult) : Client × List SendResult :=
  let taken := match sends with
    | .sent n :: _ => min n line.length
    | _ => 0
  ({ c with
      written := c.written ++ line.take taken
      failure := some ⟨line, unsent (c.outbox.getD []), taken⟩ }, sends.tail)

/-- A parsed command: blank frames are skipped, the others executed and answered. -/
def runCommand (r : Run) (cmd : Command) : Run :=
  if cmd.type = .unknown ∧ cmd.verb = [] then r
  else
    let around := commands r.executed
    let outcome := executeCommand cfg around.env around.fault cmd (sweep r.storage around.steps)
    let (client, sends) := queueResponse r.client outcome.response r.sends
    ⟨client, outcome.storage, sends, r.executed + 1⟩

/-- The loop over a received buffer. The flag says that `handle_readable` returns. Each command
takes a byte, so one round for each byte, and one more, are enough. -/
def takeBuffer : Nat → Run → Bytes → Run × Bool
  | 0, r, _ => (r, false)
  | rounds + 1, r, data =>
    if data = [] then (r, false)
    else
      match r.client.parser with
      | none => (r, true)
      | some parser =>
        match parser.consume alloc data with
        | .needMore parser _ => ({ r with client.parser := some parser }, false)
        | .error parser _ =>
          let (client, sends) := sendError { r.client with parser := some parser }
            (protocolError parser.error) r.sends
          ({ r with client := closeClient client, sends := sends }, true)
        | .ready cmd parser rest =>
          let r := runCommand cfg commands { r with client.parser := some parser } cmd
          if r.client.parser.isNone then (r, true) else takeBuffer rounds r rest

def handleReadable : List RecvResult → Run → Run
  | [], r | .again :: _, r => r
  | .intr :: recvs, r => handleReadable recvs r
  | .failed :: _, r | .data [] :: _, r => { r with client := closeClient r.client }
  | .data (c :: bytes) :: recvs, r =>
    if r.client.parser.isNone then r
    else
      match takeBuffer cfg alloc commands ((c :: bytes).length + 1) r (c :: bytes) with
      | (r, true) => r
      | (r, false) => handleReadable recvs r

/-! ## Events -/

structure Flags where
  readable : Bool
  writable : Bool
  /-- `EPOLLERR` or `EPOLLHUP` -/
  hangup : Bool
  deriving DecidableEq, Repr

/-- The loop body of `start` for the descriptor of a client. -/
def handleEvent (flags : Flags) (recvs : List RecvResult) (r : Run) : Run :=
  if flags.hangup ∧ ¬ flags.readable then { r with client := closeClient r.client }
  else
    let r := if flags.readable then handleReadable cfg alloc commands recvs r else r
    if flags.readable ∧ r.client.parser.isNone then r
    else
      let r := if flags.writable then
          let (client, sends) := trySend r.client r.sends
          { r with client := client, sends := sends }
        else r
      if flags.hangup ∧ r.client.parser.isSome then { r with client := closeClient r.client } else r

def kParseOvershoot : Nat := 1024 * 1024

/-- The longest argument that a client's parser takes. The addition is that of `size_t`. -/
def parseLimit (s : Storage) : Nat :=
  (min cfg.maxValueSize s.memoryLimit + kParseOvershoot) % 2 ^ 64

/-- A client that has just been accepted on a descriptor that was not open. -/
def acceptClient (s : Storage) (c : Client) : Client :=
  { parser := some (c.parser.getD (Parser.init (parseLimit cfg s)))
    outbox := c.outbox
    watch := some false
    isOpen := true
    interest := some false }

/-- The clients by descriptor, and the store they share. -/
structure Loop where
  clients : Nat → Client
  storage : Storage

inductive LoopEvent where
  | accept (fd : Nat)
  | ready (fd : Nat) (flags : Flags) (script : Script)

namespace Loop

def accept (l : Loop) (fd : Nat) : Loop :=
  { l with clients := Function.update l.clients fd (acceptClient cfg l.storage (l.clients fd)) }

def handle (l : Loop) (fd : Nat) (flags : Flags) (script : Script) : Loop :=
  let r := handleEvent cfg script.alloc script.commands flags script.recvs
    ⟨l.clients fd, l.storage, script.sends, 0⟩
  ⟨Function.update l.clients fd r.client, r.storage⟩

/-- The kernel gives a new client any descriptor that is not open, and it reports events on open
ones only. -/
inductive Step : Loop → LoopEvent → Loop → Prop where
  | accept {l : Loop} {fd : Nat} (closed : (l.clients fd).isOpen = false) :
      Step l (.accept fd) (l.accept cfg fd)
  | ready {l : Loop} {fd : Nat} {flags : Flags} {script : Script}
      (isOpen : (l.clients fd).isOpen = true) :
      Step l (.ready fd flags script) (l.handle cfg fd flags script)

end Loop

/-- The runs of the event loop from its start. -/
def loopSystem : Transition.System Loop LoopEvent where
  init l := ∀ fd, l.clients fd = {}
  step := Loop.Step cfg

end Server

end PolyCache
