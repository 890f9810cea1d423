import PolyCache.Server.Promises

/-!
# Lives of the program

A program that is killed and started again, any number of times, with other limits if need be. It
may be killed in the middle of a command, after the command has been logged and before it is
answered. Each boot replays the log into an empty store, with the sweeper and the clock going on
beside it. A torn line is left to `Boots.lean`: here every line that has been begun is in the file.
No allocation of `execute_command` fails in any of the lives.
-/

namespace PolyCache

open AssocMap Protocol Aof History

namespace Server

inductive LifeEvent where
  | step (e : Nat × Entry)
  /-- with what the command under way had logged, and the run of the store in the replay -/
  | boot (flight : List Record) (h : History)

inductive Life (cfg : Config) (lib : JsonLib) : Node → LifeEvent → Node → Prop where
  | step {n n' : Node} {e : Nat × Entry} (step : Step cfg lib n e n') : Life cfg lib n (.step e) n'
  | boot {n : Node} {flight : List Record} {h : History} {w : World}
      {buckets memoryLimit maxValueSize : Nat}
      (killed : flight = [] ∨
        ∃ buckets spare cmd, flight = (n.outcome cfg buckets spare cmd).logged)
      (run : (World.system buckets memoryLimit maxValueSize).Reaches h w)
      (replays : Replays lib (append lib n.file flight) h) :
      Life cfg lib n (.boot flight h) ⟨w, append lib n.file flight⟩

/-- The lives of a program that starts with an empty file. -/
def lifeSystem (cfg : Config) (lib : JsonLib) (buckets memoryLimit maxValueSize : Nat) :
    Transition.System Node LifeEvent where
  init := (system cfg lib buckets memoryLimit maxValueSize).init
  step := Life cfg lib

/-- The calls that were confirmed, and those that a kill left unanswered, newest first. -/
def written (g : List LifeEvent) : List Record :=
  g.flatMap fun
    | .step e => e.2.confirms.toList
    | .boot flight _ => flight.reverse

/-- No boot refuses a value that had been stored. -/
def KeepsAll (g : List LifeEvent) : Prop :=
  ∀ flight h, .boot flight h ∈ g → ∀ t r, (t, .set r) ∈ h → r.stored = true

/-! ## What a boot makes of the calls -/

theorem Record.apply_of_ne {r : Record} {key : Bytes} (hdel : r ≠ .del key)
    (hset : ∀ value ttl, r ≠ .set key value ttl) (c : Contents) : r.apply c key = c key := by
  cases r with
  | set key' value ttl =>
    have hne : key ≠ key' := by
      rintro rfl
      exact hset value ttl rfl
    exact (Contents.put_apply _ _ _ _ _).trans (if_neg hne)
  | del key' =>
    have hne : key ≠ key' := by
      rintro rfl
      exact hdel rfl
    exact (Contents.remove_apply _ _ _).trans (if_neg hne)

/-- A value that stands is what the calls leave, if none of them was refused. -/
theorem contents_of_stands {calls : List (Record × Bool)} {key value : Bytes}
    (h : Stands calls key value)
    (hstored : ∀ c ∈ calls, ∀ value' ttl', c.1 = .set key value' ttl' → c.2 = true) :
    ∃ ttl, contents (calls.map Prod.fst) key = some (value, ttl) := by
  obtain ⟨newer, older, ttl, rfl, hnewer⟩ := h
  refine ⟨ttl, ?_⟩
  induction newer with
  | nil => exact (Contents.put_apply _ _ _ _ _).trans (if_pos rfl)
  | cons c newer ih =>
    obtain ⟨hdel, hset⟩ := hnewer c List.mem_cons_self
    have hne : ∀ value' ttl', c.1 ≠ .set key value' ttl' := by
      intro value' ttl' heq
      have hrefused := hset value' ttl' heq
      rw [hstored c List.mem_cons_self value' ttl' heq] at hrefused
      cases hrefused
    have hsame : contents ((c :: newer ++ (.set key value ttl, true) :: older).map Prod.fst) key =
        contents ((newer ++ (.set key value ttl, true) :: older).map Prod.fst) key :=
      Record.apply_of_ne hdel hne _
    rw [hsame]
    apply ih
    · exact fun c' hc' => hnewer c' (List.mem_cons_of_mem _ hc')
    · exact fun c' hc' => hstored c' (List.mem_cons_of_mem _ hc')

theorem stored_of_calls {h : History} (hstored : ∀ t r, (t, .set r) ∈ h → r.stored = true) :
    ∀ c ∈ calls h, ∀ key value ttl, c.1 = .set key value ttl → c.2 = true := by
  induction h with
  | nil => simp [calls]
  | cons e h ih =>
    have hold := ih fun t r hmem => hstored t r (List.mem_cons_of_mem _ hmem)
    obtain ⟨t, e⟩ := e
    cases e with
    | set r =>
      rw [calls, List.forall_mem_cons]
      exact ⟨fun _ _ _ _ => hstored t r List.mem_cons_self, hold⟩
    | del key removed =>
      rw [calls, List.forall_mem_cons]
      refine ⟨?_, hold⟩
      rintro key' value ttl ⟨⟩
    | get | collect | expire | tick => exact hold

theorem confirmed_of_run {buckets memoryLimit maxValueSize : Nat} {h : History} {w : World}
    (hr : (World.system buckets memoryLimit maxValueSize).Reaches h w)
    (hstored : ∀ t r, (t, .set r) ∈ h → r.stored = true) : Confirmed (records h) w.storage := by
  intro k m hm
  apply contents_of_stands (World.stands_of_reaches hr k m hm)
  exact fun c hc value ttl heq => stored_of_calls hstored c hc k value ttl heq

/-! ## Lives -/

variable {cfg : Config} {lib : JsonLib} {buckets memoryLimit maxValueSize : Nat}
  {g : List LifeEvent} {n n' : Node}

theorem written_cons (e : LifeEvent) (g : List LifeEvent) :
    written (e :: g) = written [e] ++ written g := by
  simp [written]

theorem Step.file_eq {e : Nat × Entry} (haof : cfg.aof = true) (hs : Step cfg lib n e n') :
    n'.file = append lib n.file e.2.confirms.toList := by
  cases hs with
  | command buckets spare cmd =>
    have hlogged := (n.effect haof buckets spare cmd).logged
    exact congrArg (append lib n.file) hlogged
  | background step => rfl

theorem file_of_lives (haof : cfg.aof = true)
    (hr : (lifeSystem cfg lib buckets memoryLimit maxValueSize).Reaches g n) :
    n.file = append lib [] (written g).reverse := by
  refine hr.invariant (P := fun g n => n.file = append lib [] (written g).reverse) ?_ ?_
  · intro n hn
    exact hn.2.2
  · intro g n e n' _ ih hs
    rw [written_cons, List.reverse_append, append_append, ← ih]
    cases hs with
    | @step _ e step =>
      have hone : (written [.step e]).reverse = e.2.confirms.toList := by
        cases hcall : e.2.confirms <;> simp [written, hcall]
      rw [hone]
      exact step.file_eq haof
    | @boot flight h w =>
      have hflight : (written [.boot flight h]).reverse = flight := by simp [written]
      rw [hflight]

theorem inRange_of_lives (haof : cfg.aof = true)
    (hr : (lifeSystem cfg lib buckets memoryLimit maxValueSize).Reaches g n) :
    ∀ r ∈ (written g).reverse, r.InRange := by
  refine hr.invariant (P := fun g _ => ∀ r ∈ (written g).reverse, r.InRange) ?_ ?_
  · simp [written]
  · intro g n e n' _ ih hs r hmem
    rw [written_cons, List.reverse_append] at hmem
    refine (List.mem_append.mp hmem).elim (ih r) fun hmem => ?_
    cases hs with
    | @step _ e step =>
      refine accepted_inRange [e] r ?_
      simpa [written, accepted] using hmem
    | @boot flight h w _ _ _ killed =>
      have hflight : r ∈ flight := by simpa [written] using hmem
      rcases killed with rfl | ⟨n, spare, cmd, rfl⟩
      · cases hflight
      · rw [(Node.effect haof _ n spare cmd).logged, Option.mem_toList] at hflight
        exact confirmed_inRange hflight

theorem confirmed_of_lives (haof : cfg.aof = true) (hlib : lib.Lawful)
    (hr : (lifeSystem cfg lib buckets memoryLimit maxValueSize).Reaches g n) (hall : KeepsAll g) :
    Confirmed (written g) n.world.storage := by
  induction hr with
  | start hn =>
    intro k m hm
    rw [hn.1] at hm
    cases hm
  | @next g n n' e hr hs ih =>
    have hfile := file_of_lives haof (hr.next hs)
    have hrange := inRange_of_lives haof (hr.next hs)
    have hbefore := ih fun flight h hmem => hall flight h (List.mem_cons_of_mem _ hmem)
    cases hs with
    | @step _ e step =>
      have hone : written (.step e :: g) = e.2.confirms.toList ++ written g := rfl
      rw [hone]
      exact hbefore.step haof step
    | @boot flight h w _ _ _ killed run replays =>
      have hrecords : records h = written (.boot flight h :: g) := by
        apply List.reverse_injective
        rw [replays, ← replay_log hlib hrange]
        exact congrArg (replay lib) hfile
      rw [← hrecords]
      exact confirmed_of_run run (hall flight h List.mem_cons_self)

/-- Over all lives of the program, a boot replays the calls that were confirmed and those that a
kill left unanswered, in order; and a `GET` that is answered with a value reads the last one written
under the key in any of them, which has not been deleted since. -/
theorem reads_survive_boots (haof : cfg.aof = true) (hlib : lib.Lawful)
    (hr : (lifeSystem cfg lib buckets memoryLimit maxValueSize).Reaches g n) (hall : KeepsAll g) :
    replay lib n.file = (written g).reverse ∧
      ∀ newer older t cmd key value args,
        g = newer ++ .step (t, .command cmd (bulk value)) :: older → cmd.type = .get →
        cmd.args = key :: args → ∃ ttl, contents (written older) key = some (value, ttl) := by
  constructor
  · rw [file_of_lives haof hr]
    exact replay_log hlib (inRange_of_lives haof hr)
  · induction hr with
    | start => simp
    | @next g n n' e hr hs ih =>
      intro newer older t cmd key value args heq htype hargs
      have hbefore : KeepsAll g := fun flight h hmem => hall flight h (List.mem_cons_of_mem _ hmem)
      cases newer with
      | cons e newer =>
        exact ih hbefore newer older t cmd key value args (List.cons.inj heq).2 htype hargs
      | nil =>
        obtain ⟨rfl, rfl⟩ := List.cons.inj heq
        cases hs with
        | step step => exact (confirmed_of_lives haof hlib hr hbefore).read step htype hargs

/-! A program that is killed after it has logged `SET k v` and before it has answered it, and then
started again. -/

def emptyNode : Node := ⟨⟨Storage.init 1 1024 8, [], 0⟩, []⟩

def setText : Command := classify [ascii "SET", ascii "k", ascii "v"]

def getText : Command := classify [ascii "GET", ascii "k"]

/-- The replay in the second life. -/
def secondBoot : History := [(0, .set ⟨ascii "k", ascii "v", 0, true, true, []⟩)]

def secondLife : World :=
  ⟨((Storage.init 1 1024 8).set 0 1 (ascii "k") (withSpare (ascii "v") 0) 0).2, [], 0⟩

theorem secondLife_reaches : ∃ n, (lifeSystem Live.smallConfig Compact.lib 1 1024 8).Reaches
    [.step (0, .command getText (bulk (ascii "v"))),
      .boot [.set (ascii "k") (ascii "v") 0] secondBoot] n := by
  have start : (lifeSystem Live.smallConfig Compact.lib 1 1024 8).Reaches [] emptyNode :=
    .start ⟨rfl, rfl, rfl⟩
  have hrun : (World.system 1 1024 8).Reaches secondBoot secondLife :=
    (World.reaches_init 0).next (World.Step.set _ 1 (ascii "k") (withSpare (ascii "v") 0) 0)
  have hreplays : Replays Compact.lib
      (append Compact.lib emptyNode.file [.set (ascii "k") (ascii "v") 0]) secondBoot := by
    have hrange : ∀ r ∈ [Record.set (ascii "k") (ascii "v") 0], r.InRange := by
      simp [Record.InRange]
    rw [Replays]
    exact (replay_log Compact.lawful hrange).symm
  have booted := start.next (.boot (.inr ⟨1, 0, setText, by decide +kernel⟩) hrun hreplays)
  have hresponse : (Node.outcome Live.smallConfig ⟨secondLife,
      append Compact.lib emptyNode.file [.set (ascii "k") (ascii "v") 0]⟩ 1 0 getText).response =
      bulk (ascii "v") := by decide +kernel
  have hread : Step Live.smallConfig Compact.lib ⟨secondLife,
      append Compact.lib emptyNode.file [.set (ascii "k") (ascii "v") 0]⟩ _ _ :=
    .command _ 1 0 getText
  rw [hresponse] at hread
  exact ⟨_, booted.next (.step hread)⟩

theorem secondLife_reads : ∃ ttl,
    contents (written [.boot [.set (ascii "k") (ascii "v") 0] secondBoot]) (ascii "k") =
      some (ascii "v", ttl) := by
  obtain ⟨n, hr⟩ := secondLife_reaches
  have hall : KeepsAll [.step (0, .command getText (bulk (ascii "v"))),
      .boot [.set (ascii "k") (ascii "v") 0] secondBoot] := by
    simp [KeepsAll, secondBoot]
  exact (reads_survive_boots rfl Compact.lawful hr hall).2 [] _ 0 getText _ _ [] rfl rfl rfl

end Server

end PolyCache
