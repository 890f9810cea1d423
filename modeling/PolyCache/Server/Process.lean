import PolyCache.Admin.Segments
import PolyCache.Library.Batch
import PolyCache.Server.Live
import PolyCache.Server.Tables

/-!
# The process

The loops of `Server::start` and `AdminServer::start`, each in a thread of its own, with one table
of descriptors between them. `epoll_wait` returns up to 64 events at once, and the loops handle them
without asking again whether the descriptors are still those that the events are about: one event
can close its descriptor, and the kernel may give the number to the next connection of either
server. Other threads come between two events of a batch. As in `Live.lean`, no allocation of
`execute_command` fails.
-/

namespace PolyCache

open Protocol Aof AdminServer

namespace Server

def kMaxEvents : Nat := 64

/-- The descriptors that stay open while the loops run. -/
structure Fds where
  listen : Nat
  wake : Nat
  adminListen : Nat
  adminWake : Nat
  /-- the standard streams, the log, the `epoll` descriptors, the other ends of the pipes -/
  others : List Nat

namespace Fds

def fixed (fds : Fds) : List Nat :=
  [fds.listen, fds.wake, fds.adminListen, fds.adminWake] ++ fds.others

def Ours (fds : Fds) (fd : Nat) : Prop := fd ≠ fds.listen ∧ fd ≠ fds.wake

def Admins (fds : Fds) (fd : Nat) : Prop := fd ≠ fds.adminListen ∧ fd ≠ fds.adminWake

end Fds

/-- An event that `epoll` has for a client. -/
def Client.Reports (c : Client) (flags : Flags) : Prop :=
  ∃ watched, c.interest = some watched ∧ (flags.writable = true → watched = true)

/-- An event that `epoll` has for a connection of the admin server, which it watches for input. -/
def Reports (c : Conn) (flags : Flags) : Prop :=
  c.isOpen = true ∧ flags.writable = false ∧ (flags.readable = true ∨ flags.hangup = true)

structure Process where
  live : Live
  /-- the events that `start` has still to handle -/
  batch : List (Nat × Flags)
  /-- the clients when these events were reported -/
  reported : Nat → Client
  conns : Nat → Conn
  adminBatch : List (Nat × Flags)
  adminReported : Nat → Conn

inductive ProcessEvent where
  | wait | skip
  | live (e : LiveEvent)
  | adminWait | adminSkip
  | adminAccept (fd : Nat)
  | adminReady (fd : Nat) (flags : Flags) (e : Readiness)

namespace Process

/-- What is done to a client, open or not. -/
def handled (cfg : Config) (lib : JsonLib) (l : Live) (fd : Nat) (flags : Flags) (script : Script)
    (w : World) : Live where
  loop := l.loop.handle cfg fd flags script
  pending := w.pending
  now := w.now
  file := append lib l.file (loggedBy (l.loop.done cfg fd flags script))
  trace := l.trace ++ l.loop.exchanges cfg fd flags script

/-- The loop body of `AdminServer::start` for the descriptor of a connection. -/
def adminHandled (flags : Flags) (e : Readiness) (c : Conn) : Conn :=
  if flags.hangup = true ∧ flags.readable = false then { c with isOpen := false }
  else if flags.readable = true then handleConnection e c
  else c

/-- No descriptor of the process has the number. -/
def Free (fds : Fds) (p : Process) (fd : Nat) : Prop :=
  fd ∉ fds.fixed ∧ (p.live.loop.clients fd).isOpen = false ∧ (p.conns fd).isOpen = false

inductive Step (cfg : Config) (lib : JsonLib) (fds : Fds) :
    Process → ProcessEvent → Process → Prop where
  | wait {p : Process} {batch : List (Nat × Flags)} (handled : p.batch = [])
      (small : batch.length ≤ kMaxEvents) (distinct : (batch.map Prod.fst).Nodup)
      (reports : ∀ e ∈ batch, fds.Ours e.1 → (p.live.loop.clients e.1).Reports e.2) :
      Step cfg lib fds p .wait { p with batch := batch, reported := p.live.loop.clients }
  -- the wake-up pipe has been drained, or `accept` has no more connections
  | skip {p : Process} {fd : Nat} {flags : Flags} {rest : List (Nat × Flags)}
      (next : p.batch = (fd, flags) :: rest) (own : ¬ fds.Ours fd) :
      Step cfg lib fds p .skip { p with batch := rest }
  | accept {p : Process} {fd : Nat} {flags : Flags} {rest : List (Nat × Flags)}
      (next : p.batch = (fds.listen, flags) :: rest) (free : p.Free fds fd) :
      Step cfg lib fds p (.live (.loop (.accept fd)))
        { p with live.loop := p.live.loop.accept cfg fd }
  | ready {p : Process} {fd : Nat} {flags : Flags} {rest : List (Nat × Flags)} {script : Script}
      {w : World} (next : p.batch = (fd, flags) :: rest) (ours : fds.Ours fd)
      (timely : Timely cfg script.commands 0 p.live.world
        (p.live.loop.executed cfg fd flags script) w) :
      Step cfg lib fds p (.live (.loop (.ready fd flags script)))
        { p with live := handled cfg lib p.live fd flags script w, batch := rest }
  | background {p : Process} {e : Nat × Event} {w : World} (step : World.Step p.live.world e w)
      (background : e.2.background = true) :
      Step cfg lib fds p (.live (.background e.2))
        { p with
          live.loop.storage := w.storage
          live.pending := w.pending
          live.now := w.now }
  | adminWait {p : Process} {batch : List (Nat × Flags)} (handled : p.adminBatch = [])
      (small : batch.length ≤ kMaxEvents) (distinct : (batch.map Prod.fst).Nodup)
      (reports : ∀ e ∈ batch, fds.Admins e.1 → Reports (p.conns e.1) e.2) :
      Step cfg lib fds p .adminWait { p with adminBatch := batch, adminReported := p.conns }
  | adminSkip {p : Process} {fd : Nat} {flags : Flags} {rest : List (Nat × Flags)}
      (next : p.adminBatch = (fd, flags) :: rest) (own : ¬ fds.Admins fd) :
      Step cfg lib fds p .adminSkip { p with adminBatch := rest }
  | adminAccept {p : Process} {fd : Nat} {flags : Flags} {rest : List (Nat × Flags)}
      (next : p.adminBatch = (fds.adminListen, flags) :: rest) (free : p.Free fds fd) :
      Step cfg lib fds p (.adminAccept fd) { p with conns := Function.update p.conns fd {} }
  | adminReady {p : Process} {fd : Nat} {flags : Flags} {rest : List (Nat × Flags)}
      {e : Readiness} (next : p.adminBatch = (fd, flags) :: rest) (ours : fds.Admins fd) :
      Step cfg lib fds p (.adminReady fd flags e)
        { p with
          conns := Function.update p.conns fd (adminHandled flags e (p.conns fd))
          adminBatch := rest }

end Process

/-- The runs of the process from an empty store and an empty file. -/
def processSystem (cfg : Config) (lib : JsonLib) (fds : Fds)
    (buckets memoryLimit maxValueSize : Nat) : Transition.System Process ProcessEvent where
  init p := (liveSystem cfg lib buckets memoryLimit maxValueSize).init p.live ∧ p.batch = [] ∧
    (∀ fd, p.conns fd = { isOpen := false }) ∧ p.adminBatch = []
  step := Process.Step cfg lib fds

namespace Process

variable {cfg : Config} {lib : JsonLib} {fds : Fds} {buckets memoryLimit maxValueSize : Nat}
  {h : List ProcessEvent} {p p' : Process} {e : ProcessEvent}

/-- The steps that are steps of the server. -/
def liveEvents (h : List ProcessEvent) : List LiveEvent :=
  h.filterMap fun
    | .live e => some e
    | _ => none

/-- The events that the loops have still to handle are about the connections as they are. -/
structure Fresh (fds : Fds) (p : Process) : Prop where
  clients : Batch.Pending Prod.fst fds.Ours (fun e c => c.isOpen = true ∧ c.Reports e.2)
    p.live.loop.clients p.reported p.batch
  conns : Batch.Pending Prod.fst fds.Admins (fun e c => Reports c e.2) p.conns p.adminReported
    p.adminBatch

/-- No descriptor is in use twice. -/
structure Apart (fds : Fds) (p : Process) : Prop where
  disjoint : ∀ fd, (p.live.loop.clients fd).isOpen = true → (p.conns fd).isOpen = false
  clients : ∀ fd ∈ fds.fixed, (p.live.loop.clients fd).isOpen = false
  conns : ∀ fd ∈ fds.fixed, (p.conns fd).isOpen = false

/-! ## The server in the process -/

/-- An event that `epoll` has is about an open client. -/
theorem isOpen_of_reports {c : Client} {flags : Flags} (htabled : c.Tabled)
    (hreports : c.Reports flags) : c.isOpen = true := by
  obtain ⟨watched, hinterest, -⟩ := hreports
  rw [← htabled.watch, ← htabled.interest, hinterest]
  rfl

theorem Fresh.step (hf : p.Fresh fds) (htabled : ∀ fd, (p.live.loop.clients fd).Tabled)
    (hs : Step cfg lib fds p e p') : p'.Fresh fds := by
  obtain ⟨hclients, hconns⟩ := hf
  cases hs with
  | wait handled small distinct reports =>
    refine ⟨.take distinct fun e he hours => ?_, hconns⟩
    have hreports := reports e he hours
    exact ⟨isOpen_of_reports (htabled e.1) hreports, hreports⟩
  | skip next own =>
    rw [next] at hclients
    exact ⟨hclients.handle fun _ _ => rfl, hconns⟩
  | accept next free =>
    refine ⟨hclients.update (fun e hopen => ?_) _, hconns⟩
    rw [free.2.1] at hopen
    exact Bool.false_ne_true hopen.1
  | ready next ours timely =>
    rw [next] at hclients
    refine ⟨hclients.handle fun fd' hfd => ?_, hconns⟩
    exact Function.update_of_ne hfd _ _
  | background step background => exact ⟨hclients, hconns⟩
  | adminWait handled small distinct reports => exact ⟨hclients, .take distinct reports⟩
  | adminSkip next own =>
    rw [next] at hconns
    exact ⟨hclients, hconns.handle fun _ _ => rfl⟩
  | adminAccept next free =>
    refine ⟨hclients, hconns.update (fun e hopen => ?_) _⟩
    have hopen : (p.conns _).isOpen = true := hopen.1
    rw [free.2.2] at hopen
    exact Bool.false_ne_true hopen
  | adminReady next ours =>
    rw [next] at hconns
    refine ⟨hclients, hconns.handle fun fd' hfd => ?_⟩
    exact Function.update_of_ne hfd _ _

/-- A step of the process is a step of the server, or leaves it as it is. -/
theorem Fresh.live_step (hf : p.Fresh fds) (hs : Step cfg lib fds p e p') :
    (∃ e', e = .live e' ∧ Live.Step cfg lib p.live e' p'.live) ∨
      (liveEvents [e] = [] ∧ p'.live = p.live) := by
  cases hs with
  | accept next free => exact .inl ⟨_, rfl, .accept free.2.1⟩
  | ready next ours timely =>
    have hclients := hf.clients
    rw [next] at hclients
    exact .inl ⟨_, rfl, .ready (hclients.head ours).1 timely⟩
  | background step background => exact .inl ⟨_, rfl, .background step background⟩
  | wait | skip | adminWait | adminSkip | adminAccept | adminReady => exact .inr ⟨rfl, rfl⟩

theorem liveEvents_cons (e : ProcessEvent) (h : List ProcessEvent) :
    liveEvents (e :: h) = liveEvents [e] ++ liveEvents h := by
  cases e <;> rfl

theorem tabled_of_live {g : List LiveEvent} {l : Live}
    (hr : (liveSystem cfg lib buckets memoryLimit maxValueSize).Reaches g l) :
    ∀ fd, (l.loop.clients fd).Tabled := by
  refine hr.stateInvariant (P := fun l => ∀ fd, (l.loop.clients fd).Tabled) ?_ ?_
  · intro l hl fd
    rw [hl.1 fd]
    exact tabled_closeClient {}
  · intro l e l' ih hs
    cases hs with
    | accept closed => exact tabled_step ih (Loop.Step.accept closed)
    | ready isOpen timely => exact tabled_step ih (Loop.Step.ready isOpen)
    | background step background => exact ih

theorem live_of_reaches
    (hr : (processSystem cfg lib fds buckets memoryLimit maxValueSize).Reaches h p) :
    p.Fresh fds ∧
      (liveSystem cfg lib buckets memoryLimit maxValueSize).Reaches (liveEvents h) p.live := by
  induction hr with
  | start hp =>
    obtain ⟨hlive, hbatch, hconns, hadmin⟩ := hp
    refine ⟨⟨?_, ?_⟩, .start hlive⟩
    · rw [hbatch]
      exact .empty _ _
    · rw [hadmin]
      exact .empty _ _
  | @next h p p' e hr hs ih =>
    obtain ⟨hfresh, hlive⟩ := ih
    refine ⟨hfresh.step (tabled_of_live hlive) hs, ?_⟩
    rw [liveEvents_cons]
    obtain ⟨e', rfl, hstep⟩ | ⟨hnone, hsame⟩ := hfresh.live_step hs
    · exact hlive.next hstep
    · rw [hnone, hsame]
      exact hlive

/-! ## Descriptors -/

theorem isOpen_adminHandled {flags : Flags} {r : Readiness} {c : Conn}
    (hreports : Reports c flags) : (adminHandled flags r c).isOpen = false := by
  obtain ⟨-, -, hflags⟩ := hreports
  unfold adminHandled
  split_ifs with hhangup hreadable
  · rfl
  · unfold handleConnection
    split <;> rfl
  · grind

theorem Apart.step (ha : p.Apart fds) (hf : p.Fresh fds) (hs : Step cfg lib fds p e p') :
    p'.Apart fds := by
  obtain ⟨hdisjoint, hclients, hconns⟩ := ha
  -- a handled descriptor was open before, so that it may stay open
  cases hs with
  | wait | skip | background | adminWait | adminSkip => exact ⟨hdisjoint, hclients, hconns⟩
  | @accept fd flags rest next free =>
    obtain ⟨hfixed, -, hconn⟩ := free
    constructor
    · intro fd' hopen
      by_cases hfd : fd' = fd
      · rw [hfd, hconn]
      · apply hdisjoint
        simpa [Loop.accept, hfd] using hopen
    · intro fd' hfd'
      have hfd : fd' ≠ fd := by
        rintro rfl
        exact hfixed hfd'
      simpa [Loop.accept, hfd] using hclients fd' hfd'
    · exact hconns
  | @ready fd flags rest script w next ours timely =>
    have hpending := hf.clients
    rw [next] at hpending
    have hopen : (p.live.loop.clients fd).isOpen = true := (hpending.head ours).1
    constructor
    · intro fd' hopen'
      by_cases hfd : fd' = fd
      · rw [hfd]
        exact hdisjoint fd hopen
      · apply hdisjoint
        simpa [handled, Loop.handle, hfd] using hopen'
    · intro fd' hfd'
      have hfd : fd' ≠ fd := by
        rintro rfl
        simp [hclients fd' hfd'] at hopen
      simpa [handled, Loop.handle, hfd] using hclients fd' hfd'
    · exact hconns
  | @adminAccept fd flags rest next free =>
    obtain ⟨hfixed, hclient, -⟩ := free
    constructor
    · intro fd' hopen
      have hfd : fd' ≠ fd := by
        rintro rfl
        simp [hclient] at hopen
      simpa [hfd] using hdisjoint fd' hopen
    · exact hclients
    · intro fd' hfd'
      have hfd : fd' ≠ fd := by
        rintro rfl
        exact hfixed hfd'
      simpa [hfd] using hconns fd' hfd'
  | @adminReady fd flags rest r next ours =>
    have hpending := hf.conns
    rw [next] at hpending
    have hclosed : ∀ fd', (p.conns fd').isOpen = false →
        (Function.update p.conns fd (adminHandled flags r (p.conns fd)) fd').isOpen = false := by
      intro fd' hconn
      by_cases hfd : fd' = fd
      · rw [hfd, Function.update_self]
        exact isOpen_adminHandled (hpending.head ours)
      · rw [Function.update_of_ne hfd]
        exact hconn
    constructor
    · exact fun fd' hopen => hclosed fd' (hdisjoint fd' hopen)
    · exact hclients
    · exact fun fd' hfd' => hclosed fd' (hconns fd' hfd')

theorem apart_of_reaches
    (hr : (processSystem cfg lib fds buckets memoryLimit maxValueSize).Reaches h p) :
    p.Apart fds := by
  refine hr.invariant (P := fun _ p => p.Apart fds) ?_ ?_
  · intro p hp
    obtain ⟨hlive, -, hconns, -⟩ := hp
    constructor
    · intro fd _
      rw [hconns fd]
    · intro fd _
      rw [hlive.1 fd]
    · intro fd _
      rw [hconns fd]
  · intro h p e p' hr ih hs
    exact ih.step (live_of_reaches hr).1 hs

/-- Every event is handled on the connection that it was reported for, which is still open and as it
was then, and no descriptor is in use twice: neither loop acts on a connection of the other, or on
one that has been given the number of a closed one. -/
theorem events_stand
    (hr : (processSystem cfg lib fds buckets memoryLimit maxValueSize).Reaches h p) :
    (∀ e ∈ p.batch, fds.Ours e.1 → p.live.loop.clients e.1 = p.reported e.1 ∧
      (p.live.loop.clients e.1).isOpen = true ∧ (p.live.loop.clients e.1).Reports e.2) ∧
    (∀ e ∈ p.adminBatch, fds.Admins e.1 → p.conns e.1 = p.adminReported e.1 ∧
      Reports (p.conns e.1) e.2) ∧
    p.Apart fds := by
  obtain ⟨⟨hclients, hconns⟩, -⟩ := live_of_reaches hr
  refine ⟨fun e he hours => ?_, fun e he hours => ?_, apart_of_reaches hr⟩
  · exact ⟨hclients.same e he hours, hclients.stands e he hours⟩
  · exact ⟨hconns.same e he hours, hconns.stands e he hours⟩

/-! ## Connections of the admin server -/

/-- It has been accepted and no event has been handled, or it is closed and was answered once at
most. -/
def Once (c : Conn) : Prop := c = {} ∨ c.isOpen = false ∧ c.answered.length ≤ 1

theorem once_adminHandled {flags : Flags} {r : Readiness} {c : Conn} (h : Once c)
    (hreports : Reports c flags) : Once (adminHandled flags r c) := by
  obtain rfl | ⟨hclosed, -⟩ := h
  · refine .inr ⟨isOpen_adminHandled hreports, ?_⟩
    unfold adminHandled
    split_ifs
    · exact Nat.zero_le 1
    · unfold handleConnection
      split
      · exact Nat.zero_le 1
      · exact Nat.zero_le 1
      · exact Nat.le_refl 1
    · exact Nat.zero_le 1
  · have hopen := hreports.1
    rw [hclosed] at hopen
    cases hopen

theorem once_update {conns : Nat → Conn} {c : Conn} (h : ∀ fd, Once (conns fd)) (fd : Nat)
    (hc : Once c) : ∀ fd', Once (Function.update conns fd c fd') := by
  intro fd'
  by_cases hfd : fd' = fd
  · rw [hfd, Function.update_self]
    exact hc
  · rw [Function.update_of_ne hfd]
    exact h fd'

/-- Each connection of the admin server is closed by its first event, with one answer at most. -/
theorem once_of_reaches
    (hr : (processSystem cfg lib fds buckets memoryLimit maxValueSize).Reaches h p) :
    ∀ fd, Once (p.conns fd) := by
  refine hr.invariant (P := fun _ p => ∀ fd, Once (p.conns fd)) ?_ ?_
  · intro p hp fd
    rw [hp.2.2.1 fd]
    exact .inr ⟨rfl, Nat.zero_le 1⟩
  · intro h p e p' hr ih hs
    cases hs with
    | wait | skip | accept | ready | background | adminWait | adminSkip => exact ih
    | @adminAccept fd flags rest next free => exact once_update ih fd (.inl rfl)
    | @adminReady fd flags rest r next ours =>
      have hpending := (live_of_reaches hr).1.conns
      rw [next] at hpending
      exact once_update ih fd (once_adminHandled (ih fd) (hpending.head ours))

/-- An event of a connection of the admin server is its first, and closes it. -/
theorem admin_served_once
    (hr : (processSystem cfg lib fds buckets memoryLimit maxValueSize).Reaches h p) :
    (∀ fd, Once (p.conns fd)) ∧ ∀ fd flags r p',
      Step cfg lib fds p (.adminReady fd flags r) p' →
        p.conns fd = {} ∧ (p'.conns fd).isOpen = false := by
  refine ⟨once_of_reaches hr, fun fd flags r p' hs => ?_⟩
  cases hs with
  | adminReady next ours =>
    have hpending := (live_of_reaches hr).1.conns
    rw [next] at hpending
    have hreports : Reports (p.conns fd) flags := hpending.head ours
    constructor
    · obtain hnew | ⟨hclosed, -⟩ := once_of_reaches hr fd
      · exact hnew
      · have hopen := hreports.1
        rw [hclosed] at hopen
        cases hopen
    · simpa using isOpen_adminHandled hreports

/-- Whatever is proved of the server alone holds of the server in the process: its events, handled
in batches, are a run of the server that takes one event after the other. -/
theorem process_refines_live
    (hr : (processSystem cfg lib fds buckets memoryLimit maxValueSize).Reaches h p) :
    (liveSystem cfg lib buckets memoryLimit maxValueSize).Reaches (liveEvents h) p.live :=
  (live_of_reaches hr).2

/-! ## A client and a connection of the admin server -/

def smallFds : Fds := ⟨3, 4, 5, 6, [0, 1, 2]⟩

def readable : Flags := ⟨true, false, false⟩

def idle : Process where
  live := ⟨⟨fun _ => {}, Storage.init 1 1024 8⟩, [], 0, [], []⟩
  batch := []
  reported _ := {}
  conns _ := { isOpen := false }
  adminBatch := []
  adminReported _ := { isOpen := false }

/-- Descriptor 7 is a client's, and 8 a connection of the admin server. Both have an event. -/
def busy : Process where
  live := { idle.live with loop := idle.live.loop.accept Live.smallConfig 7 }
  batch := [(7, readable)]
  reported := (idle.live.loop.accept Live.smallConfig 7).clients
  conns := Function.update idle.conns 8 {}
  adminBatch := [(8, readable)]
  adminReported := Function.update idle.conns 8 {}

theorem reaches_busy : ∃ h,
    (processSystem Live.smallConfig Compact.lib smallFds 1 1024 8).Reaches h busy := by
  have start : (processSystem Live.smallConfig Compact.lib smallFds 1 1024 8).Reaches [] idle :=
    .start ⟨⟨fun _ => rfl, rfl, rfl, rfl, rfl⟩, rfl, fun _ => rfl, rfl⟩
  have waited := start.next (@Step.wait _ _ _ idle [(3, readable)] rfl (by decide) (by decide)
    (by simp [smallFds, Fds.Ours]))
  have accepted := waited.next (@Step.accept _ _ _ _ 7 _ _ rfl ⟨by decide, rfl, rfl⟩)
  have skipped := accepted.next (.skip rfl (by simp [smallFds, Fds.Ours]))
  have admin := skipped.next (@Step.adminWait _ _ _ _ [(5, readable)] rfl (by decide) (by decide)
    (by simp [smallFds, Fds.Admins]))
  have both := admin.next (@Step.adminAccept _ _ _ _ 8 _ _ rfl ⟨by decide, by decide, rfl⟩)
  have connected := both.next (.adminSkip rfl (by simp [smallFds, Fds.Admins]))
  have ready := connected.next (@Step.wait _ _ _ _ [(7, readable)] rfl (by decide) (by decide)
    (by simp [Loop.accept, acceptClient, Client.Reports, readable]))
  exact ⟨_, ready.next (@Step.adminWait _ _ _ _ [(8, readable)] rfl (by decide) (by decide)
    (by simp [Reports, readable]))⟩

theorem busy_stands : (busy.live.loop.clients 7).isOpen = true ∧
    busy.live.loop.clients 7 = busy.reported 7 ∧ (busy.conns 7).isOpen = false := by
  obtain ⟨h, hr⟩ := reaches_busy
  obtain ⟨hclients, -, hapart⟩ := events_stand hr
  obtain ⟨hsame, hopen, -⟩ := hclients (7, readable) List.mem_cons_self ⟨by decide, by decide⟩
  exact ⟨hopen, hsame, hapart.disjoint 7 hopen⟩

theorem busy_served_once : ∃ p', Step Live.smallConfig Compact.lib smallFds busy
      (.adminReady 8 readable ⟨[.data AdminServer.healthRequest], [], []⟩) p' ∧
    busy.conns 8 = {} ∧ (p'.conns 8).isOpen = false := by
  obtain ⟨h, hr⟩ := reaches_busy
  have hs : Step Live.smallConfig Compact.lib smallFds busy
      (.adminReady 8 readable ⟨[.data AdminServer.healthRequest], [], []⟩) _ :=
    .adminReady rfl ⟨by decide, by decide⟩
  exact ⟨_, hs, (admin_served_once hr).2 _ _ _ _ hs⟩

theorem busy_refines :
    ∃ g, (liveSystem Live.smallConfig Compact.lib 1 1024 8).Reaches g busy.live := by
  obtain ⟨h, hr⟩ := reaches_busy
  exact ⟨_, process_refines_live hr⟩

end Process

end Server

end PolyCache
