import Mathlib.Logic.Function.Basic
import PolyCache.Library.Progress

/-!
# Stopping

`start` and `stop` are the same in `Server` and `AdminServer`. A loop goes on while `running_` is
set; `stop` clears it and writes a byte to a pipe that the loop waits for among other descriptors.
`stop` is called by the handler of a signal, in whatever thread, and by `main`, so that it may come
at any moment of `start`, before the loop too. A `Gate` is what the two work on, with where
`start` and each call of `stop` are.
-/

namespace PolyCache

namespace Server

/-- Where `start` is. -/
inductive Phase where
  -- sockets and pipe are being made
  | setup
  -- next, `running_` is set
  | opened
  | check
  | waiting
  -- the batch has been taken, with an event of the pipe that is still to come or not
  | handling (woken : Bool)
  -- the pipe is closed next, one end and then the other
  | closing
  | halfClosed
  -- the pipe is closed, and `wake_pipe_` does not say so yet
  | closed
  | ended
  deriving DecidableEq, Repr

/-- Where a call of `stop` is: the next thing that it does. -/
inductive StopCall where
  | idle | store | look | write
  deriving DecidableEq, Repr

namespace Phase

/-- `wake_pipe_[1]` is not `-1`. -/
def hasPipe : Phase → Bool
  | .setup | .ended => false
  | _ => true

/-- Both ends of the pipe are open. -/
def pipeOpen : Phase → Bool
  | .opened | .check | .waiting | .handling _ | .closing => true
  | _ => false

/-- `running_` has been set, and the loop has not been left. -/
def looping : Phase → Bool
  | .check | .waiting | .handling _ => true
  | _ => false

/-- The loop has been left, or never entered. -/
def left : Phase → Bool
  | .closing | .halfClosed | .closed | .ended => true
  | _ => false

end Phase

structure Gate (ι : Type*) where
  phase : Phase := .setup
  running : Bool := false
  /-- the bytes in the pipe -/
  bytes : Nat := 0
  calls : ι → StopCall := fun _ => .idle
  /-- `SIGPIPE` has ended the process -/
  killed : Bool := false

inductive GateEvent (ι : Type*) where
  | refused | made | run | again | leave
  | wait (woken : Bool)
  | interrupted | broken | drain | handled | close
  | call (i : ι)
  | store (i : ι)
  | look (i : ι)
  | write (i : ι)

variable {ι : Type*} [DecidableEq ι]

inductive Gate.Step : Gate ι → GateEvent ι → Gate ι → Prop where
  -- `socket`, `bind`, `listen`, `epoll_create1` or `socketpair` has failed
  | refused {g : Gate ι} (phase : g.phase = .setup) : Step g .refused { g with phase := .ended }
  | made {g : Gate ι} (phase : g.phase = .setup) : Step g .made { g with phase := .opened }
  | run {g : Gate ι} (phase : g.phase = .opened) :
      Step g .run { g with phase := .check, running := true }
  | again {g : Gate ι} (phase : g.phase = .check) (running : g.running = true) :
      Step g .again { g with phase := .waiting }
  | leave {g : Gate ι} (phase : g.phase = .check) (stopped : g.running = false) :
      Step g .leave { g with phase := .closing }
  -- `epoll_wait` may leave the pipe out when it has 64 other events
  | wait {g : Gate ι} {woken : Bool} (phase : g.phase = .waiting)
      (ready : woken = true → 0 < g.bytes) :
      Step g (.wait woken) { g with phase := .handling woken }
  | interrupted {g : Gate ι} (phase : g.phase = .waiting) :
      Step g .interrupted { g with phase := .check }
  | broken {g : Gate ι} (phase : g.phase = .waiting) : Step g .broken { g with phase := .closing }
  | drain {g : Gate ι} (phase : g.phase = .handling true) :
      Step g .drain { g with phase := .handling false, bytes := 0 }
  | handled {g : Gate ι} (phase : g.phase = .handling false) :
      Step g .handled { g with phase := .check }
  | closeRead {g : Gate ι} (phase : g.phase = .closing) :
      Step g .close { g with phase := .halfClosed }
  | closeWrite {g : Gate ι} (phase : g.phase = .halfClosed) :
      Step g .close { g with phase := .closed }
  | closed {g : Gate ι} (phase : g.phase = .closed) : Step g .close { g with phase := .ended }
  | call {g : Gate ι} {i : ι} (next : g.calls i = .idle) :
      Step g (.call i) { g with calls := Function.update g.calls i .store }
  | store {g : Gate ι} {i : ι} (next : g.calls i = .store) :
      Step g (.store i) { g with running := false, calls := Function.update g.calls i .look }
  | look {g : Gate ι} {i : ι} (next : g.calls i = .look) :
      Step g (.look i) { g with
        calls := Function.update g.calls i (if g.phase.hasPipe then .write else .idle) }
  -- on a closed descriptor `write` fails, and with the other end closed it raises `SIGPIPE`
  | write {g : Gate ι} {i : ι} (next : g.calls i = .write) :
      Step g (.write i) { g with
        bytes := if g.phase.pipeOpen then g.bytes + 1 else g.bytes
        calls := Function.update g.calls i .idle
        killed := g.phase = .halfClosed }

namespace GateEvent

/-- No new call of `stop`, and no system call that fails. -/
def quiet : GateEvent ι → Bool
  | .call _ | .refused | .broken => false
  | _ => true

/-- A step that needs nothing from outside. Where there is none, `epoll_wait` blocks: it returns for
another descriptor or a signal if one comes, and of itself only if there is a byte in the pipe. -/
def own : GateEvent ι → Bool
  | .wait false | .interrupted => false
  | _ => true

/-- The last store to `running_` was that of a `stop`, or there was none. -/
def heard : List (GateEvent ι) → Bool
  | [] => true
  | .run :: _ => false
  | .store _ :: _ => true
  | _ :: h => heard h

end GateEvent

/-- `start` once, and any number of calls of `stop`. -/
def gateSystem (ι : Type*) [DecidableEq ι] : Transition.System (Gate ι) (GateEvent ι) where
  init g := g = {}
  step g e g' := g.killed = false ∧ Gate.Step g e g'

/-- The same, where no `stop` is called any more and no system call fails. -/
def quietGate (ι : Type*) [DecidableEq ι] : Transition.System (Gate ι) (GateEvent ι) :=
  (gateSystem ι).restrict fun _ e => e.quiet = true

/-- The same, where nothing comes from outside either. -/
def ownGate (ι : Type*) [DecidableEq ι] : Transition.System (Gate ι) (GateEvent ι) :=
  (quietGate ι).restrict fun _ e => e.own = true

namespace Gate

open GateEvent

variable {h : List (GateEvent ι)} {g g' : Gate ι} {e : GateEvent ι}

/-- If the loop waits after a `stop`, there is something in the pipe, or that call has still to
write it. -/
def Awake (g : Gate ι) : Prop :=
  g.phase = .waiting → g.running = false →
    0 < g.bytes ∨ ∃ i, g.calls i = .look ∨ g.calls i = .write

theorem Awake.step (ha : g.Awake) (hs : Step g e g') : g'.Awake := by
  intro hwaiting hstopped
  cases hs with
  | again phase running =>
    rw [running] at hstopped
    cases hstopped
  | refused | made | run | leave | wait | interrupted | broken | drain | handled | closeRead
  | closeWrite | closed => cases hwaiting
  | @call i next =>
    obtain hbytes | ⟨j, hj⟩ := ha hwaiting hstopped
    · exact .inl hbytes
    · have hne : j ≠ i := by
        rintro rfl
        simp [next] at hj
      exact .inr ⟨j, by simpa [hne] using hj⟩
  | @store i next => exact .inr ⟨i, by simp⟩
  | @look i next =>
    have hphase : g.phase = .waiting := hwaiting
    exact .inr ⟨i, by simp [hphase, Phase.hasPipe]⟩
  | @write i next =>
    have hphase : g.phase = .waiting := hwaiting
    exact .inl (by simp [hphase, Phase.pipeOpen])

theorem awake_of_reaches (hr : (gateSystem ι).Reaches h g) : g.Awake := by
  refine hr.stateInvariant (P := Awake) ?_ ?_
  · rintro g rfl hwaiting
    cases hwaiting
  · intro g e g' ih hs
    exact ih.step hs.2

theorem running_of_reaches (hr : (gateSystem ι).Reaches h g) : g.running = !heard h := by
  refine hr.invariant (P := fun h g => g.running = !heard h) ?_ ?_
  · rintro g rfl
    rfl
  · intro h g e g' _ ih hs
    cases hs.2 <;> first | rfl | exact ih

/-! ## The end of the loop -/

/-- The steps that a loop that has been stopped has still to take at most. -/
def toGo (g : Gate ι) : Nat :=
  match g.phase with
  | .setup => 9
  | .opened => 8
  | .waiting => 7
  | .handling true => 6
  | .handling false => 5
  | .check => 4
  | .closing => 3
  | .halfClosed => 2
  | .closed => 1
  | .ended => 0

/-- No `stop` is under way, and the loop has been left or is going to be. -/
structure Stopped (g : Gate ι) : Prop where
  alive : g.killed = false
  idle : ∀ i, g.calls i = .idle
  ends : g.phase.left = true ∨ g.phase.looping = true ∧ g.running = false

theorem Stopped.step (hstopped : g.Stopped) (hs : Step g e g') (hquiet : e.quiet = true) :
    g'.Stopped ∧ g'.toGo < g.toGo := by
  obtain ⟨alive, idle, ends⟩ := hstopped
  cases hs with
  | refused | broken | call => cases hquiet
  | store next | look next | write next => simp [idle] at next
  | made phase | run phase => simp [phase, Phase.left, Phase.looping] at ends
  | again phase running => simp [phase, running, Phase.left] at ends
  | @wait woken phase ready =>
    simp only [phase, Phase.left, Phase.looping, Bool.false_eq_true, false_or, true_and] at ends
    refine ⟨⟨alive, idle, .inr ⟨rfl, ends⟩⟩, ?_⟩
    cases woken <;> simp [toGo, phase]
  | leave phase stopped => exact ⟨⟨alive, idle, .inl rfl⟩, by simp [toGo, phase]⟩
  | interrupted phase | drain phase | handled phase =>
    simp only [phase, Phase.left, Phase.looping, Bool.false_eq_true, false_or, true_and] at ends
    exact ⟨⟨alive, idle, .inr ⟨rfl, ends⟩⟩, by simp [toGo, phase]⟩
  | closeRead phase | closeWrite phase | closed phase =>
    exact ⟨⟨alive, idle, .inl rfl⟩, by simp [toGo, phase]⟩

/-- Some step is possible that needs nothing from outside, also where the loop waits: then there is
a byte in the pipe. -/
theorem Stopped.enabled (hstopped : g.Stopped) (ha : g.Awake) (hphase : g.phase ≠ .ended) :
    ∃ e g', Step g e g' ∧ e.quiet = true ∧ e.own = true := by
  obtain ⟨alive, idle, ends⟩ := hstopped
  cases hg : g.phase with
  | setup | opened => simp [hg, Phase.left, Phase.looping] at ends
  | check =>
    simp only [hg, Phase.left, Phase.looping, Bool.false_eq_true, false_or, true_and] at ends
    exact ⟨_, _, .leave hg ends, rfl, rfl⟩
  | waiting =>
    simp only [hg, Phase.left, Phase.looping, Bool.false_eq_true, false_or, true_and] at ends
    have hbytes : 0 < g.bytes := by
      obtain hbytes | ⟨i, hi⟩ := ha hg ends
      · exact hbytes
      · simp [idle] at hi
    exact ⟨_, _, @Step.wait _ _ _ true hg fun _ => hbytes, rfl, rfl⟩
  | handling woken =>
    cases woken with
    | true => exact ⟨_, _, .drain hg, rfl, rfl⟩
    | false => exact ⟨_, _, .handled hg, rfl, rfl⟩
  | closing => exact ⟨_, _, .closeRead hg, rfl, rfl⟩
  | halfClosed => exact ⟨_, _, .closeWrite hg, rfl, rfl⟩
  | closed => exact ⟨_, _, .closed hg, rfl, rfl⟩
  | ended => exact absurd hg hphase

/-- No `stop` is under way, and the loop goes on or is still to be entered. -/
structure Unheard (g : Gate ι) : Prop where
  alive : g.killed = false
  idle : ∀ i, g.calls i = .idle
  goesOn : g.phase = .setup ∨ g.phase = .opened ∨ g.phase.looping = true ∧ g.running = true

/-- Then it goes on. -/
theorem Unheard.step (hg : g.Unheard) (hs : Step g e g') (hquiet : e.quiet = true) :
    g'.Unheard := by
  obtain ⟨alive, idle, goesOn⟩ := hg
  cases hs with
  | refused | broken | call => cases hquiet
  | store next | look next | write next => simp [idle] at next
  | made phase => exact ⟨alive, idle, .inr (.inl rfl)⟩
  | run phase => exact ⟨alive, idle, .inr (.inr ⟨rfl, rfl⟩)⟩
  | again phase running => exact ⟨alive, idle, .inr (.inr ⟨rfl, running⟩)⟩
  | leave phase stopped => simp [phase, stopped, Phase.looping] at goesOn
  | wait phase | interrupted phase | drain phase | handled phase =>
    simp only [phase, Phase.looping, reduceCtorEq, false_or, true_and] at goesOn
    exact ⟨alive, idle, .inr (.inr ⟨rfl, goesOn⟩)⟩
  | closeRead phase | closeWrite phase | closed phase => simp [phase, Phase.looping] at goesOn

/-- The loop is left after a bounded number of steps, and until `start` has returned it can always
go on without anything from outside: it never blocks. -/
def Returns (g : Gate ι) : Prop :=
  (quietGate ι).Ends g ∧ ∀ h g', ((quietGate ι).startAt g).Reaches h g' →
    (ownGate ι).Final g' → g'.phase = .ended

theorem Stopped.returns (hstopped : g.Stopped) (hr : (gateSystem ι).Reaches h g) :
    g.Returns := by
  have hnext : ∀ t e t', t.Stopped → (quietGate ι).step t e t' → t'.Stopped ∧ t'.toGo < t.toGo :=
    fun t e t' ht hs => ht.step hs.1.2 hs.2
  refine ⟨Transition.System.ends_of_measure hstopped hnext, fun h' g' hr' hfinal => ?_⟩
  have hstopped' := (Transition.length_add_le hstopped hnext hr').1
  by_contra hphase
  have hrun : (gateSystem ι).Reaches (h' ++ h) g' := by
    apply hr.append_startAt
    exact Transition.System.Reaches.of_restrict hr'
  obtain ⟨e, g'', hs, hquiet, hown⟩ := hstopped'.enabled (awake_of_reaches hrun) hphase
  exact hfinal e g'' ⟨⟨⟨hstopped'.alive, hs⟩, hquiet⟩, hown⟩

/-- When the calls of `stop` have returned, the loop is going to be left if one of them stored its
flag after `start` did: no wake-up is lost. If none did, they are lost, and the loop goes on. -/
theorem stop_heard (hr : (gateSystem ι).Reaches h g) (alive : g.killed = false)
    (idle : ∀ i, g.calls i = .idle) (hlooping : g.phase.looping = true) :
    (heard h = true → g.Returns) ∧
      (heard h = false → ∀ h' g', ((quietGate ι).startAt g).Reaches h' g' →
        g'.phase.looping = true) := by
  have hrunning := running_of_reaches hr
  constructor
  · intro hheard
    have hstopped : g.Stopped := ⟨alive, idle, .inr ⟨hlooping, by simp [hrunning, hheard]⟩⟩
    exact hstopped.returns hr
  · intro hheard h' g' hr'
    have hsafe : g'.Unheard ∧ g'.phase.looping = true := by
      refine hr'.stateInvariant (P := fun t => t.Unheard ∧ t.phase.looping = true) ?_ ?_
      · rintro t rfl
        exact ⟨⟨alive, idle, .inr (.inr ⟨hlooping, by simp [hrunning, hheard]⟩)⟩, hlooping⟩
      · rintro t e t' ⟨ht, hphase⟩ ⟨⟨-, hs⟩, hquiet⟩
        have ht' := ht.step hs hquiet
        refine ⟨ht', ?_⟩
        obtain hsetup | hopened | ⟨hphase', -⟩ := ht'.goesOn
        · cases hs <;> simp_all [Phase.looping]
        · cases hs <;> simp_all [Phase.looping]
        · exact hphase'
    exact hsafe.2

/-- A `stop` that comes when the loop is being entered. -/
theorem stopped_returns : ∃ g : Gate Nat, g.phase = .check ∧ g.bytes = 1 ∧ g.Returns := by
  have start : (gateSystem Nat).Reaches [] {} := .start rfl
  have called := (start.next ⟨rfl, .made rfl⟩).next ⟨rfl, @Step.call _ _ _ 0 rfl⟩
  have running := called.next ⟨rfl, .run rfl⟩
  have stored := running.next ⟨rfl, @Step.store _ _ _ 0 (by simp)⟩
  have looked := stored.next ⟨rfl, @Step.look _ _ _ 0 (by simp)⟩
  have written := looked.next ⟨rfl, @Step.write _ _ _ 0 (by simp [Phase.hasPipe])⟩
  refine ⟨_, rfl, rfl, (stop_heard written rfl (fun i => ?_) rfl).1 rfl⟩
  by_cases hi : i = 0 <;> simp [hi]

end Gate

/-! ## The program -/

/-- Where `main` is, from the start of the thread of the admin server on. -/
inductive MainPhase where
  -- in `server.start()`
  | serving
  -- in `admin.stop()`
  | stopping
  -- in `admin_thread.join()`
  | joining
  | exited
  deriving DecidableEq, Repr

/-- The calls of `stop` by handlers are numbered from one; that of `main` is the zeroth. -/
structure Program where
  server : Gate Nat := {}
  admin : Gate Nat := {}
  main : MainPhase := .serving

inductive ProgramEvent where
  | server (e : GateEvent Nat)
  | admin (e : GateEvent Nat)
  | stop | join | exit

namespace GateEvent

/-- The event is one of a call of `stop`, which had been called before it or not. -/
def ofCall : GateEvent ι → Option ι
  | .call i | .store i | .look i | .write i => some i
  | _ => none

def underWay : GateEvent ι → Bool
  | .store _ | .look _ | .write _ => true
  | _ => false

end GateEvent

namespace Program

/-- The threads in turn. The handler of a signal calls `stop` of both servers, of the first one as
long as `g_server` is not null. -/
inductive Step : Program → ProgramEvent → Program → Prop where
  | server {p : Program} {e : GateEvent Nat} {g : Gate Nat} (step : Gate.Step p.server e g)
      (signal : e.ofCall ≠ some 0) (serving : e.underWay = true ∨ p.main = .serving) :
      Step p (.server e) { p with server := g }
  | admin {p : Program} {e : GateEvent Nat} {g : Gate Nat} (step : Gate.Step p.admin e g)
      (main : e.ofCall = some 0 → p.main = .stopping ∧ e.underWay = true)
      (running : p.main ≠ .exited) : Step p (.admin e) { p with admin := g }
  | stop {p : Program} {g : Gate Nat} (serving : p.main = .serving)
      (returned : p.server.phase = .ended) (step : Gate.Step p.admin (.call 0) g) :
      Step p .stop { p with admin := g, main := .stopping }
  | join {p : Program} (stopping : p.main = .stopping) (returned : p.admin.calls 0 = .idle) :
      Step p .join { p with main := .joining }
  | exit {p : Program} (joining : p.main = .joining) (ended : p.admin.phase = .ended) :
      Step p .exit { p with main := .exited }

end Program

def programSystem : Transition.System Program ProgramEvent where
  init p := p = {}
  step p e p' := p.server.killed = false ∧ p.admin.killed = false ∧ Program.Step p e p'

/-- No new signal, and no system call that fails. -/
def ProgramEvent.quiet : ProgramEvent → Bool
  | .server e | .admin e => e.quiet
  | .stop | .join | .exit => true

def quietProgram : Transition.System Program ProgramEvent :=
  programSystem.restrict fun _ e => e.quiet = true

def ProgramEvent.own : ProgramEvent → Bool
  | .server e | .admin e => e.own
  | .stop | .join | .exit => true

/-- The same, where nothing comes from outside either. -/
def ownProgram : Transition.System Program ProgramEvent :=
  quietProgram.restrict fun _ e => e.own = true

namespace Program

variable {h : List ProgramEvent} {p p' : Program} {e : ProgramEvent}

def adminEvents (h : List ProgramEvent) : List (GateEvent Nat) :=
  h.filterMap fun
    | .admin e => some e
    | .stop => some (.call 0)
    | _ => none

/-- The admin server takes its steps in the program, and `main` has left `server.start()` when that
has returned. -/
theorem admin_of_reaches (hr : programSystem.Reaches h p) :
    (gateSystem Nat).Reaches (adminEvents h) p.admin ∧
      (p.main ≠ .serving → p.server.phase = .ended) := by
  induction hr with
  | start hp =>
    obtain rfl := hp
    exact ⟨.start rfl, fun hmain => absurd rfl hmain⟩
  | @next h p p' e hr hs ih =>
    obtain ⟨hadmin, hended⟩ := ih
    obtain ⟨-, halive, hs⟩ := hs
    cases hs with
    | @server e g step signal serving =>
      refine ⟨hadmin, fun hmain => ?_⟩
      have hphase := hended hmain
      have hunder : e.underWay = true := serving.resolve_right hmain
      cases step with
      | store | look | write => exact hphase
      | _ => cases hunder
    | admin step main running => exact ⟨hadmin.next ⟨halive, step⟩, hended⟩
    | stop serving returned step => exact ⟨hadmin.next ⟨halive, step⟩, fun _ => returned⟩
    | join stopping returned => exact ⟨hadmin, fun _ => hended (by simp [stopping])⟩
    | exit joining ended => exact ⟨hadmin, fun _ => hended (by simp [joining])⟩

/-- `main` waits for the admin server, or has done so. No `stop` is under way. -/
structure Joining (p : Program) : Prop where
  main : p.main = .joining ∨ p.main = .exited
  server : p.server.phase = .ended
  alive : p.server.killed = false
  idle : ∀ i, p.server.calls i = .idle

theorem Joining.step (hj : p.Joining) (hs : Step p e p') (hquiet : e.quiet = true) :
    (∃ e' g, e = .admin e' ∧ Gate.Step p.admin e' g ∧ p' = { p with admin := g }) ∨
      (e = .exit ∧ p.main = .joining ∧ p.admin.phase = .ended ∧
        p' = { p with main := .exited }) := by
  obtain ⟨hmain, hserver, -, idle⟩ := hj
  cases hs with
  | server step signal serving =>
    cases step with
    | store next | look next | write next => simp [idle] at next
    | call => cases hquiet
    | _ => simp_all
  | admin step main running => exact .inl ⟨_, _, rfl, step, rfl⟩
  | stop serving returned step => simp [serving] at hmain
  | join stopping returned => simp [stopping] at hmain
  | exit joining ended => exact .inr ⟨rfl, joining, ended, rfl⟩

/-- The program exits after a bounded number of steps, and until then it can always go on without
anything from outside. -/
def Exits (p : Program) : Prop :=
  quietProgram.Ends p ∧ ∀ h p', (quietProgram.startAt p).Reaches h p' → ownProgram.Final p' →
    p'.main = .exited

def toGo (p : Program) : Nat := p.admin.toGo + if p.main = .joining then 1 else 0

theorem exits_of_stopped (hr : programSystem.Reaches h p) (hj : p.Joining)
    (hstopped : p.admin.Stopped) : p.Exits := by
  have hnext : ∀ t e t', (t.Joining ∧ t.admin.Stopped) → quietProgram.step t e t' →
      (t'.Joining ∧ t'.admin.Stopped) ∧ t'.toGo < t.toGo := by
    rintro t e t' ⟨hj, hstopped⟩ ⟨⟨-, -, hs⟩, hquiet⟩
    obtain ⟨e, g, rfl, step, rfl⟩ | ⟨rfl, hmain, hended, rfl⟩ := hj.step hs hquiet
    · obtain ⟨hstopped', hlt⟩ := hstopped.step step hquiet
      exact ⟨⟨⟨hj.main, hj.server, hj.alive, hj.idle⟩, hstopped'⟩, by simpa [toGo] using hlt⟩
    · exact ⟨⟨⟨.inr rfl, hj.server, hj.alive, hj.idle⟩, hstopped⟩, by simp [toGo, hmain]⟩
  refine ⟨Transition.System.ends_of_measure ⟨hj, hstopped⟩ hnext, fun h' p' hr' hfinal => ?_⟩
  obtain ⟨⟨hj', hstopped'⟩, -⟩ := Transition.length_add_le ⟨hj, hstopped⟩ hnext hr'
  obtain hmain | hmain := hj'.main
  · exfalso
    by_cases hphase : p'.admin.phase = .ended
    · exact hfinal .exit _ ⟨⟨⟨hj'.alive, hstopped'.alive, .exit hmain hphase⟩, rfl⟩, rfl⟩
    · have hrun : programSystem.Reaches (h' ++ h) p' := by
        apply hr.append_startAt
        exact Transition.System.Reaches.of_restrict hr'
      have hawake := Gate.awake_of_reaches (admin_of_reaches hrun).1
      obtain ⟨e, g, hs, hquiet, hown⟩ := hstopped'.enabled hawake hphase
      have hcall : e.ofCall ≠ some 0 := by
        intro hcall
        cases hs with
        | call => cases hquiet
        | store next | look next | write next => simp [hstopped'.idle] at next
        | _ => cases hcall
      exact hfinal (.admin e) _ ⟨⟨⟨hj'.alive, hstopped'.alive,
        .admin hs (fun h => absurd h hcall) (by simp [hmain])⟩, hquiet⟩, hown⟩
  · exact hmain

theorem hangs_of_unheard (hj : p.Joining) (hmain : p.main = .joining)
    (hunheard : p.admin.Unheard) {h' : List ProgramEvent}
    (hr : (quietProgram.startAt p).Reaches h' p') : p'.main = .joining := by
  have hsafe : p'.Joining ∧ p'.main = .joining ∧ p'.admin.Unheard := by
    refine hr.stateInvariant (P := fun t => t.Joining ∧ t.main = .joining ∧ t.admin.Unheard) ?_ ?_
    · rintro t rfl
      exact ⟨hj, hmain, hunheard⟩
    · rintro t e t' ⟨hj, hmain, hunheard⟩ ⟨⟨-, -, hs⟩, hquiet⟩
      obtain ⟨e, g, rfl, step, rfl⟩ | ⟨-, -, hended, -⟩ := hj.step hs hquiet
      · exact ⟨⟨.inl hmain, hj.server, hj.alive, hj.idle⟩, hmain, hunheard.step step hquiet⟩
      · have hgoes := hunheard.goesOn
        simp [hended, Phase.looping] at hgoes
  exact hsafe.2.1

/-- When `main` has told the admin server to stop, the program exits if that has left its loop by
itself, or if a `stop` has stored its flag since the admin server entered the loop. Otherwise it
never does: a `main` that was quicker, because `server.start()` could not bind its port, waits for
ever. -/
theorem join_returns (hr : programSystem.Reaches h p) (hmain : p.main = .joining)
    (hserver : p.server.killed = false) (hadmin : p.admin.killed = false)
    (hcalls : ∀ i, p.server.calls i = .idle) (hidle : ∀ i, p.admin.calls i = .idle) :
    let told := p.admin.phase.left = true ∨
      p.admin.phase.looping = true ∧ GateEvent.heard (adminEvents h) = true
    (told → p.Exits) ∧
      (¬ told → ∀ h' p', (quietProgram.startAt p).Reaches h' p' → p'.main = .joining) := by
  intro told
  obtain ⟨hgate, hended⟩ := admin_of_reaches hr
  have hj : p.Joining := ⟨.inl hmain, hended (by simp [hmain]), hserver, hcalls⟩
  have hrunning := Gate.running_of_reaches hgate
  constructor
  · intro htold
    refine exits_of_stopped hr hj ⟨hadmin, hidle, ?_⟩
    obtain hleft | ⟨hlooping, hheard⟩ := htold
    · exact .inl hleft
    · exact .inr ⟨hlooping, by simp [hrunning, hheard]⟩
  · intro hnot h' p' hr'
    refine hangs_of_unheard hj hmain ⟨hadmin, hidle, ?_⟩ hr'
    obtain ⟨hleft, hheard⟩ := not_or.mp hnot
    rw [not_and] at hheard
    cases hphase : p.admin.phase with
    | setup => exact .inl rfl
    | opened => exact .inr (.inl rfl)
    | check | waiting | handling =>
      refine .inr (.inr ⟨rfl, ?_⟩)
      have hunheard := hheard (by rw [hphase]; rfl)
      simpa [hrunning] using hunheard
    | closing | halfClosed | closed | ended => simp [hphase, Phase.left] at hleft

/-- The server cannot bind its port, and `main` is in `join` before the admin server has started. -/
theorem refused_waits : ∃ p : Program, p.server.phase = .ended ∧
    ∀ h' p', (quietProgram.startAt p).Reaches h' p' → p'.main = .joining := by
  have start : programSystem.Reaches [] {} := .start rfl
  have refused := start.next ⟨rfl, rfl, .server (.refused rfl) (by simp [GateEvent.ofCall])
    (.inr rfl)⟩
  have stop := refused.next ⟨rfl, rfl, .stop rfl rfl (.call rfl)⟩
  have stored := stop.next ⟨rfl, rfl, .admin (@Gate.Step.store _ _ _ 0 (by simp))
    (fun _ => ⟨rfl, rfl⟩) (by simp)⟩
  have looked := stored.next ⟨rfl, rfl, .admin (@Gate.Step.look _ _ _ 0 (by simp))
    (fun _ => ⟨rfl, rfl⟩) (by simp)⟩
  have joining := looked.next ⟨rfl, rfl, .join rfl (by simp [Phase.hasPipe])⟩
  refine ⟨_, rfl, (join_returns joining rfl rfl rfl (fun _ => rfl) (fun i => ?_)).2 ?_⟩
  · by_cases hi : i = 0 <;> simp [hi, Phase.hasPipe]
  · simp [Phase.left, Phase.looping]

end Program

end Server

end PolyCache
