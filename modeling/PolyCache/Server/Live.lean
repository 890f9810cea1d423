import PolyCache.Library.Simulation
import PolyCache.Server.Node
import PolyCache.Server.Session

/-!
# The whole server

The event loop with its log, while the sweeper and the clock go on. What a client sends comes in
pieces, its commands are executed where the pieces end, and other clients, the sweeper and the clock
come in between. All of this is a run of the node of `Node.lean`: commands one after the other, each
logged and applied at once. The replies of a client are the responses to its commands. As there, no
allocation of `execute_command` fails; those of the parser may.
-/

namespace PolyCache

open Protocol Aof

namespace Server

/-! ## The sweeper and the clock -/

/-- What the sweeper and the clock do between two commands, with the steps that the store takes. -/
inductive Background : World → List SweepStep → World → Prop where
  | done (w : World) : Background w [] w
  | tick {w w' : World} {steps : List SweepStep} (ticks : Nat)
      (rest : Background { w with now := w.now + ticks } steps w') : Background w steps w'
  | collect {w w' : World} {steps : List SweepStep} (batch : List Bytes) (idle : w.pending = [])
      (all : batch.Perm (w.storage.collectExpired w.now).1)
      (rest : Background { w with
        storage := (w.storage.collectExpired w.now).2
        pending := batch } steps w') : Background w (.collect w.now :: steps) w'
  | expire {w w' : World} {steps : List SweepStep} {key : Bytes} {keys : List Bytes}
      (next : w.pending = key :: keys)
      (rest : Background { w with storage := w.storage.expireKey key, pending := keys } steps w') :
      Background w (.expire key :: steps) w'

/-- The surroundings of the commands, from the `k`-th of an event on, are those that one sweeper
and one clock make, and no allocation fails. -/
inductive Timely (cfg : Config) (commands : Nat → Surroundings) :
    Nat → World → List Command → World → Prop where
  | done (k : Nat) (w : World) : Timely cfg commands k w [] w
  | command {k : Nat} {w w₁ w' : World} {cmd : Command} {cmds : List Command}
      (before : Background w (commands k).steps w₁) (clock : (commands k).env.now = w₁.now)
      (granted : (commands k).fault = none)
      (rest : Timely cfg commands (k + 1)
        { w₁ with storage := (executeAround cfg (commands k) cmd w.storage).storage } cmds w') :
      Timely cfg commands k w (cmd :: cmds) w'

/-- The responses of a journal with their commands, oldest first. -/
def exchanged (j : Journal) : List (Command × Response) :=
  (j.filterMap fun e => match e.2 with
    | .command cmd response => some (cmd, response)
    | .background _ => none).reverse

section Node

variable {cfg : Config} {lib : JsonLib} {buckets memoryLimit maxValueSize : Nat} {j : Journal}
  {w w' : World} {file : Bytes}

theorem Background.storage {steps : List SweepStep} (h : Background w steps w') :
    w'.storage = sweep w.storage steps := by
  induction h with
  | done => rfl
  | tick _ _ ih | collect _ _ _ _ ih | expire _ _ ih => exact ih

/-- The node takes the same steps. -/
theorem Background.reaches {steps : List SweepStep} (h : Background w steps w')
    (hr : (system cfg lib buckets memoryLimit maxValueSize).Reaches j ⟨w, file⟩) :
    ∃ j', (system cfg lib buckets memoryLimit maxValueSize).Reaches j' ⟨w', file⟩ ∧
      exchanged j' = exchanged j := by
  induction h generalizing j with
  | done => exact ⟨j, hr, rfl⟩
  | @tick w w' steps ticks rest ih =>
    obtain ⟨j', hr', heq⟩ := ih (hr.next (.background _ (World.Step.tick w ticks) rfl))
    exact ⟨j', hr', heq⟩
  | @collect w w' steps batch idle all rest ih =>
    obtain ⟨j', hr', heq⟩ := ih (hr.next (.background _ (World.Step.collect w batch idle all) rfl))
    exact ⟨j', hr', heq⟩
  | @expire w w' steps key keys next rest ih =>
    obtain ⟨j', hr', heq⟩ := ih (hr.next (.background _ (World.Step.expire w key keys next) rfl))
    exact ⟨j', hr', heq⟩

/-- What the commands of an event log. -/
def loggedBy (done : List Execution) : List Record := done.flatMap fun x => x.outcome.logged

/-- The commands of an event are commands of the node, one after the other. -/
theorem Timely.reaches {commands : Nat → Surroundings} {k : Nat} {cmds : List Command}
    (h : Timely cfg commands k w cmds w')
    (hr : (system cfg lib buckets memoryLimit maxValueSize).Reaches j ⟨w, file⟩) :
    ∃ j', (system cfg lib buckets memoryLimit maxValueSize).Reaches j'
        ⟨w', append lib file (loggedBy (outcomes cfg commands k w.storage cmds))⟩ ∧
      w'.storage = storeAfter cfg commands k w.storage cmds ∧
      exchanged j' = exchanged j ++
        (outcomes cfg commands k w.storage cmds).map fun x => (x.command, x.outcome.response) := by
  induction h generalizing j file with
  | done k w => exact ⟨j, hr, rfl, by simp [outcomes]⟩
  | @command k w w₁ w' cmd cmds before clock granted rest ih =>
    obtain ⟨j₁, hr₁, heq₁⟩ := before.reaches hr
    have houtcome : Node.outcome cfg ⟨w₁, file⟩ (commands k).env.buckets (commands k).env.spare
          cmd =
        executeAround cfg (commands k) cmd w.storage := by
      rw [Node.outcome, executeAround, granted, ← before.storage, ← clock]
    have hstep : Step cfg lib ⟨w₁, file⟩ _ _ :=
      .command ⟨w₁, file⟩ (commands k).env.buckets (commands k).env.spare cmd
    rw [houtcome] at hstep
    obtain ⟨j', hr', hstorage, heq⟩ := ih (hr₁.next hstep)
    refine ⟨j', ?_, hstorage, ?_⟩
    · rw [outcomes, loggedBy, List.flatMap_cons, append_append]
      exact hr'
    · have hnext : exchanged ((w₁.now, .command cmd
          (executeAround cfg (commands k) cmd w.storage).response) :: j₁) =
          exchanged j₁ ++ [(cmd, (executeAround cfg (commands k) cmd w.storage).response)] := by
        simp [exchanged]
      rw [heq, hnext, heq₁, outcomes, List.map_cons, List.append_assoc]
      rfl

end Node

/-! ## The server -/

structure Live where
  loop : Loop
  /-- the rest of the batch in `sweep_loop` -/
  pending : List Bytes
  now : Nat
  /-- the content of the log file -/
  file : Bytes
  /-- the commands executed so far, oldest first -/
  trace : List Exchange

inductive LiveEvent where
  | loop (e : LoopEvent)
  | background (e : Event)

namespace Live

def world (l : Live) : World := ⟨l.loop.storage, l.pending, l.now⟩

def node (l : Live) : Node := ⟨l.world, l.file⟩

inductive Step (cfg : Config) (lib : JsonLib) : Live → LiveEvent → Live → Prop where
  | accept {l : Live} {fd : Nat} (closed : (l.loop.clients fd).isOpen = false) :
      Step cfg lib l (.loop (.accept fd)) { l with loop := l.loop.accept cfg fd }
  | ready {l : Live} {fd : Nat} {flags : Flags} {script : Script} {w : World}
      (isOpen : (l.loop.clients fd).isOpen = true)
      (timely : Timely cfg script.commands 0 l.world (l.loop.executed cfg fd flags script) w) :
      Step cfg lib l (.loop (.ready fd flags script))
        { loop := l.loop.handle cfg fd flags script
          pending := w.pending
          now := w.now
          file := append lib l.file (loggedBy (l.loop.done cfg fd flags script))
          trace := l.trace ++ l.loop.exchanges cfg fd flags script }
  | background {l : Live} {e : Nat × Event} {w : World} (step : World.Step l.world e w)
      (background : e.2.background = true) :
      Step cfg lib l (.background e.2)
        { l with loop.storage := w.storage, pending := w.pending, now := w.now }

end Live

/-- The runs of the server from an empty store and an empty file. -/
def liveSystem (cfg : Config) (lib : JsonLib) (buckets memoryLimit maxValueSize : Nat) :
    Transition.System Live LiveEvent where
  init l := (∀ fd, l.loop.clients fd = {}) ∧
    l.loop.storage = Storage.init buckets memoryLimit maxValueSize ∧ l.pending = [] ∧
    l.file = [] ∧ l.trace = []
  step := Live.Step cfg lib

namespace Live

variable {cfg : Config} {lib : JsonLib} {buckets memoryLimit maxValueSize : Nat} {j : Journal}
  {g : List LiveEvent} {l l' : Live} {fd : Nat} {flags : Flags} {script : Script}

/-- The replies of each client are the last responses to its commands. -/
def Replied (l : Live) : Prop :=
  ∀ fd, (l.loop.clients fd).replies <:+ (ofClient fd l.trace).map fun x => x.response.frame

/-- The node has executed the commands of the clients, in order. -/
structure Explains (l : Live) (j : Journal) (n : Node) : Prop where
  node : n = l.node
  exchanged : exchanged j = l.trace.map fun x => (x.command, x.response)
  replied : l.Replied

theorem Replied.accept (h : l.Replied) (fd : Nat) :
    Replied { l with loop := l.loop.accept cfg fd } := by
  intro fd'
  by_cases hfd : fd' = fd
  · subst hfd
    simp [Loop.accept, acceptClient]
  · simpa [Loop.accept, hfd] using h fd'

theorem Replied.ready (h : l.Replied) (pending : List Bytes) (now : Nat) (file : Bytes) :
    Replied ⟨l.loop.handle cfg fd flags script, pending, now, file,
      l.trace ++ l.loop.exchanges cfg fd flags script⟩ := by
  intro fd'
  have hfrom : ∀ x ∈ l.loop.exchanges cfg fd flags script, x.fd = fd := fd_of_exchanges
  by_cases hfd : fd' = fd
  · subst hfd
    obtain ⟨before, hbefore⟩ := h fd'
    refine ⟨before, ?_⟩
    rw [ofClient_append, ofClient_eq_self hfrom, List.map_append, ← hbefore, List.append_assoc]
    exact congrArg (before ++ ·) replies_handle
  · rw [ofClient_append, ofClient_eq_nil hfrom (Ne.symm hfd), List.append_nil]
    simpa [Loop.handle, hfd] using h fd'

/-- A step of the server is a run of the node. -/
theorem Explains.step {n : Node} (h : l.Explains j n)
    (hr : (system cfg lib buckets memoryLimit maxValueSize).Reaches j n) {e : LiveEvent}
    (hs : Step cfg lib l e l') :
    ∃ j' n', (system cfg lib buckets memoryLimit maxValueSize).Reaches j' n' ∧
      l'.Explains j' n' := by
  obtain ⟨rfl, hexchanged, hreplied⟩ := h
  cases hs with
  | @accept fd closed => exact ⟨j, _, hr, rfl, hexchanged, hreplied.accept fd⟩
  | @ready fd flags script w isOpen timely =>
    obtain ⟨j', hr', hstorage, heq⟩ := timely.reaches hr
    have hexecutes := executes_handleEvent cfg script.alloc script.commands flags script.recvs
      ⟨l.loop.clients fd, l.loop.storage, script.sends, 0⟩
    have hworld : w = ⟨(l.loop.handle cfg fd flags script).storage, w.pending, w.now⟩ := by
      rw [Loop.handle, hexecutes.storage]
      exact congrArg (fun s => World.mk s w.pending w.now) hstorage
    refine ⟨j', _, hr', ?_, ?_, hreplied.ready w.pending w.now _⟩
    · exact congrArg (fun w => Node.mk w _) hworld
    · rw [heq, hexchanged, List.map_append, Loop.exchanges, List.map_map]
      rfl
  | @background e w step hbackground =>
    exact ⟨_, _, hr.next (.background _ step hbackground), rfl, hexchanged, hreplied⟩

theorem explains_of_reaches
    (hr : (liveSystem cfg lib buckets memoryLimit maxValueSize).Reaches g l) :
    ∃ j n, (system cfg lib buckets memoryLimit maxValueSize).Reaches j n ∧ l.Explains j n := by
  refine hr.follow (R := fun _ l j n => l.Explains j n) (fun l hl => ?_) ?_
  · obtain ⟨hclients, hstorage, hpending, hfile, htrace⟩ := hl
    refine ⟨l.node, .start ⟨hstorage, hpending, hfile⟩, rfl, ?_, fun fd => ?_⟩
    · rw [htrace]
      rfl
    · simp [hclients, htrace, ofClient]
  · exact fun _ _ _ _ _ _ hexplains hr' hs => hexplains.step hr' hs

/-- Whatever the clients send and however it comes, the server's store and log are those of a run
of its commands one after the other, and each client is sent the responses to its own, where no
allocation of `execute_command` fails. -/
theorem server_refines_node
    (hr : (liveSystem cfg lib buckets memoryLimit maxValueSize).Reaches g l) :
    ∃ j, (system cfg lib buckets memoryLimit maxValueSize).Reaches j l.node ∧
      exchanged j = l.trace.map (fun x => (x.command, x.response)) ∧
      ∀ fd, (l.loop.clients fd).replies <:+
        (ofClient fd l.trace).map fun x => x.response.frame := by
  obtain ⟨j, n, hr', rfl, hexchanged, hreplied⟩ := explains_of_reaches hr
  exact ⟨j, hr', hexchanged, hreplied⟩

/-! Two clients, the second of which reads what the first has set. -/

def smallConfig : Config := ⟨true, 8, fun _ => []⟩

/-- What comes with an event in which `bytes` are received. -/
def receiving (bytes : Bytes) : Script where
  recvs := [.data bytes]
  commands _ := { env := ⟨0, 1, 0⟩ }
  alloc _ := true

def afterBytes (l : Live) (fd : Nat) (bytes : Bytes) : Live where
  loop := l.loop.handle smallConfig fd ⟨true, false, false⟩ (receiving bytes)
  pending := l.pending
  now := l.now
  file := append Compact.lib l.file
    (loggedBy (l.loop.done smallConfig fd ⟨true, false, false⟩ (receiving bytes)))
  trace := l.trace ++ l.loop.exchanges smallConfig fd ⟨true, false, false⟩ (receiving bytes)

def twoClients : Live where
  loop := (Loop.accept smallConfig ⟨fun _ => {}, Storage.init 1 1024 8⟩ 7).accept smallConfig 8
  pending := []
  now := 0
  file := []
  trace := []

def afterPut : Live := twoClients.afterBytes 7 (ascii "*3\r\n$3\r\nSET\r\n$1\r\nk\r\n$1\r\nv\r\n")

def afterFetch : Live := afterPut.afterBytes 8 (ascii "*2\r\n$3\r\nGET\r\n$1\r\nk\r\n")

/-- With one command in the bytes, and an idle sweeper. -/
theorem reaches_afterBytes {bytes : Bytes} {cmd : Command} (hnow : l.now = 0)
    (hr : (liveSystem smallConfig Compact.lib 1 1024 8).Reaches g l)
    (hopen : (l.loop.clients fd).isOpen = true)
    (hcmd : l.loop.executed smallConfig fd ⟨true, false, false⟩ (receiving bytes) = [cmd]) :
    ∃ g', (liveSystem smallConfig Compact.lib 1 1024 8).Reaches g' (l.afterBytes fd bytes) := by
  have htimely : Timely smallConfig (receiving bytes).commands 0 l.world
      (l.loop.executed smallConfig fd ⟨true, false, false⟩ (receiving bytes))
      ⟨(executeAround smallConfig ⟨[], ⟨0, 1, 0⟩, none⟩ cmd l.loop.storage).storage, l.pending,
        l.now⟩ := by
    rw [hcmd]
    exact .command (.done _) hnow.symm rfl (.done _ _)
  have hstep : Step smallConfig Compact.lib l _ (l.afterBytes fd bytes) := .ready hopen htimely
  exact ⟨_, hr.next hstep⟩

theorem reaches_afterFetch :
    ∃ g, (liveSystem smallConfig Compact.lib 1 1024 8).Reaches g afterFetch := by
  have start : (liveSystem smallConfig Compact.lib 1 1024 8).Reaches []
      ⟨⟨fun _ => {}, Storage.init 1 1024 8⟩, [], 0, [], []⟩ :=
    .start ⟨fun _ => rfl, rfl, rfl, rfl, rfl⟩
  have two : (liveSystem smallConfig Compact.lib 1 1024 8).Reaches _ twoClients :=
    (start.next (.accept rfl)).next (.accept rfl)
  have hput : twoClients.loop.executed smallConfig 7 ⟨true, false, false⟩
      (receiving (ascii "*3\r\n$3\r\nSET\r\n$1\r\nk\r\n$1\r\nv\r\n")) =
      [⟨.set, ascii "SET", [ascii "k", ascii "v"]⟩] := by decide +kernel
  have hfetch : afterPut.loop.executed smallConfig 8 ⟨true, false, false⟩
      (receiving (ascii "*2\r\n$3\r\nGET\r\n$1\r\nk\r\n")) =
      [⟨.get, ascii "GET", [ascii "k"]⟩] := by decide +kernel
  obtain ⟨g, put⟩ := reaches_afterBytes rfl two rfl hput
  exact reaches_afterBytes rfl put (by decide +kernel) hfetch

theorem afterFetch_refines : ∃ j, (system smallConfig Compact.lib 1 1024 8).Reaches j
    afterFetch.node := by
  obtain ⟨g, hr⟩ := reaches_afterFetch
  obtain ⟨j, hj, -⟩ := server_refines_node hr
  exact ⟨j, hj⟩

end Live

end Server

end PolyCache
