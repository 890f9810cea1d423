import PolyCache.Aof.Compact
import PolyCache.Aof.Replay
import PolyCache.Server.Command

/-!
# A server with its log

A run of the program with the log on: commands go through `execute_command`, which logs and applies
them, while the sweeper and the clock go on. No allocation fails and every write to the file
succeeds. The history lists each command with its response, and what the sweeper and the clock did,
newest first. The log holds the sets answered `+OK` and the deletions answered `:1`; what a later
replay makes of it is compared with the run.
-/

namespace PolyCache

open Protocol Aof

namespace Server

/-! ## What a command does to the store and the log -/

/-- The call that a response confirms: a set answered `+OK` or a deletion answered `:1`. -/
def confirmed (cmd : Command) (response : Response) : Option Record :=
  match cmd.type, cmd.args with
  | .set, key :: text :: options =>
    match scanOptions true false 0 options with
    | .ok ttl => if response.head = ascii "+OK" then some (.set key text ttl) else none
    | .error _ => none
  | .del, key :: _ => if response.head = ascii ":1" then some (.del key) else none
  | _, _ => none

/-- All that a command can do to the store, with what it logs and what its response confirms. -/
inductive Effect (env : Env) (s : Storage) : Storage → List Record → Option Record → Prop where
  | set {key text : Bytes} {ttl : Int} (fits : s.canStore key (withSpare text env.spare) = true) :
      Effect env s (s.set env.now env.buckets key (withSpare text env.spare) ttl).2
        [.set key text ttl] (some (.set key text ttl))
  | get (key : Bytes) : Effect env s (s.get env.now key).2 [] none
  | del {key : Bytes} (removed : (s.del key).1 = true) :
      Effect env s (s.del key).2 [.del key] (some (.del key))
  | none : Effect env s s [] none

variable {cfg : Config} {env : Env} {s : Storage}

theorem confirmed_set_eq_none {cmd : Command} (htype : cmd.type = .set) {response : Response}
    (hhead : response.head ≠ ascii "+OK") : confirmed cmd response = none := by
  unfold confirmed
  rw [htype]
  split
  · split
    · rw [if_neg hhead]
    · rfl
  · simp_all
  · rfl

theorem parseInt_bounds {text : Bytes} {n : Int} (h : parseInt text = some n) :
    -2 ^ 31 ≤ n ∧ n < 2 ^ 31 := by
  cases text with
  | nil => exact nomatch h
  | cons c rest =>
    unfold parseInt at h
    dsimp only at h
    split_ifs at h with _ _ _ _ hbound hbound _ _ _ hbound hbound
    all_goals
      rw [← Option.some.inj h]
      exact hbound

/-- The ttl of a `SET` is an `int`. -/
theorem scanOptions_bounds {first sawExpiry : Bool} {ttl n : Int} {options : List Bytes}
    (h : scanOptions first sawExpiry ttl options = .ok n) (httl : -2 ^ 31 ≤ ttl ∧ ttl < 2 ^ 31) :
    -2 ^ 31 ≤ n ∧ n < 2 ^ 31 := by
  fun_induction scanOptions first sawExpiry ttl options with
  | case1 => rwa [← Except.ok.inj h]
  | case2 | case3 | case4 | case7 => cases h
  | case5 first sawExpiry ttl text opt hopt amount rest n' hparse hpos ttl' ih =>
    have hbounds := parseInt_bounds hparse
    refine ih h ?_
    simp only [ttl']
    split_ifs <;> omega
  | case6 first sawExpiry ttl text rest opt hopt n' hparse ih =>
    split_ifs at hparse with hfirst
    exact ih h (parseInt_bounds hparse)

theorem confirmed_inRange {cmd : Command} {response : Response} {r : Record}
    (h : confirmed cmd response = some r) : r.InRange := by
  unfold confirmed at h
  split at h
  · split at h
    · rename_i hscan
      split_ifs at h
      rw [← Option.some.inj h]
      exact scanOptions_bounds hscan (by decide)
    · cases h
  · split_ifs at h
    rw [← Option.some.inj h]
    exact trivial
  · cases h

theorem effect_executeSet (haof : cfg.aof = true) {cmd : Command} (htype : cmd.type = .set) :
    let o := executeSet cfg env none s cmd.args
    Effect env s o.storage o.logged (confirmed cmd o.response) := by
  have hrefused : ∀ head : Bytes, head ≠ ascii "+OK" →
      Effect env s s [] (confirmed cmd { head := head }) := by
    intro head hhead
    rw [confirmed_set_eq_none htype hhead]
    exact .none
  match hargs : cmd.args with
  | [] | [_] => exact hrefused _ (by decide)
  | key :: text :: options =>
    have hinvalid : ∀ head, scanOptions true false 0 options = .error head →
        Effect env s s [] (confirmed cmd { head := head }) := by
      intro head hscan
      have hnone : confirmed cmd { head := head } = none := by
        simp [confirmed, htype, hargs, hscan]
      rw [hnone]
      exact .none
    rw [executeSet]
    split_ifs with hkey htext hfits
    · exact hrefused _ (by decide)
    · exact hrefused _ (by decide)
    · cases hscan : scanOptions true false 0 options with
      | error head => exact hinvalid head hscan
      | ok ttl =>
        have hsome : confirmed cmd { head := ascii "+OK" } = some (.set key text ttl) := by
          simp [confirmed, htype, hargs, hscan]
        simp only [storeLogged, haof, Storage.trySet, storePoint, Option.isSome_some, if_true,
          hsome, reduceCtorEq, and_false, if_false]
        exact .set hfits
    · cases hscan : scanOptions true false 0 options with
      | error head => exact hinvalid head hscan
      | ok ttl => exact hrefused (ascii "-ERR value too large for memory limit") (by decide)

theorem effect_executeDel (haof : cfg.aof = true) {cmd : Command} (htype : cmd.type = .del) :
    let o := executeCommand cfg env none cmd s
    Effect env s o.storage o.logged (confirmed cmd o.response) := by
  match hargs : cmd.args with
  | [] =>
    simp only [executeCommand, confirmed, htype, hargs]
    exact .none
  | key :: args =>
    have hne : ascii ":0" ≠ ascii ":1" := by decide
    cases hm : s.data.lookup key with
    | none =>
      simp only [executeCommand, confirmed, htype, hargs, Storage.del_of_absent hm, reply,
        if_neg hne]
      exact .none
    | some m =>
      have hdel : s.del key = (true, (s.del key).2) := by simp [Storage.del_of_present hm]
      have heffect : Effect env s (s.del key).2 [.del key] (some (.del key)) := .del (by rw [hdel])
      simp only [executeCommand, confirmed, htype, hargs, haof, if_true]
      rw [hdel]
      exact heffect

theorem effect_executeCommand (haof : cfg.aof = true) (env : Env) (s : Storage) (cmd : Command) :
    let o := executeCommand cfg env none cmd s
    Effect env s o.storage o.logged (confirmed cmd o.response) := by
  cases htype : cmd.type with
  | set =>
    have ho : executeCommand cfg env none cmd s = executeSet cfg env none s cmd.args := by
      simp [executeCommand, htype]
    rw [ho]
    exact effect_executeSet haof htype
  | del => exact effect_executeDel haof htype
  | get =>
    match hargs : cmd.args with
    | [] =>
      simp only [executeCommand, confirmed, htype, hargs]
      exact .none
    | key :: args =>
      have hget : Effect env s (s.get env.now key).2 [] none := .get key
      simp only [executeCommand, confirmed, htype, hargs]
      split <;> simp_all [reply]
  | ping =>
    match hargs : cmd.args with
    | [] | _ :: _ =>
      simp only [executeCommand, confirmed, htype, hargs]
      exact .none
  | select | metrics =>
    simp only [executeCommand, confirmed, htype]
    exact .none
  | unknown =>
    simp only [executeCommand, confirmed, htype]
    split <;> exact .none

/-! ## Runs -/

/-- The program and the content of its log file. -/
structure Node where
  world : World
  file : Bytes

inductive Entry where
  | command (cmd : Command) (response : Response)
  | background (e : Event)

abbrev Journal := List (Nat × Entry)

def Node.outcome (cfg : Config) (n : Node) (buckets spare : Nat) (cmd : Command) : Outcome :=
  executeCommand cfg ⟨n.world.now, buckets, spare⟩ none cmd n.world.storage

inductive Step (cfg : Config) (lib : JsonLib) : Node → Nat × Entry → Node → Prop where
  | command (n : Node) (buckets spare : Nat) (cmd : Command) :
      Step cfg lib n (n.world.now, .command cmd (n.outcome cfg buckets spare cmd).response)
        { world := { n.world with storage := (n.outcome cfg buckets spare cmd).storage }
          file := append lib n.file (n.outcome cfg buckets spare cmd).logged }
  | background (n : Node) {e : Nat × Event} {w : World} (step : World.Step n.world e w)
      (background : e.2.background = true) :
      Step cfg lib n (e.1, .background e.2) { n with world := w }

/-- The runs from an empty store and an empty file. -/
def system (cfg : Config) (lib : JsonLib) (buckets memoryLimit maxValueSize : Nat) :
    Transition.System Node (Nat × Entry) where
  init n := n.world.storage = Storage.init buckets memoryLimit maxValueSize ∧ n.world.pending = [] ∧
    n.file = []
  step := Step cfg lib

/-- The call that an entry of the journal confirms. -/
def Entry.confirms : Entry → Option Record
  | .command cmd response => confirmed cmd response
  | .background _ => none

/-- The sets answered `+OK` and the deletions answered `:1`, newest first. -/
def accepted (j : Journal) : List Record := j.filterMap fun e => e.2.confirms

variable {lib : JsonLib} {buckets memoryLimit maxValueSize : Nat} {j : Journal} {n n' : Node}
  {e : Nat × Entry}

theorem Node.effect (haof : cfg.aof = true) (n : Node) (buckets spare : Nat) (cmd : Command) :
    Effect ⟨n.world.now, buckets, spare⟩ n.world.storage (n.outcome cfg buckets spare cmd).storage
      (n.outcome cfg buckets spare cmd).logged
      (confirmed cmd (n.outcome cfg buckets spare cmd).response) :=
  effect_executeCommand haof _ _ cmd

theorem Effect.logged {s' : Storage} {logged : List Record} {call : Option Record}
    (h : Effect env s s' logged call) : logged = call.toList := by
  cases h <;> rfl

/-- What is confirmed was logged with an `int`. -/
theorem accepted_inRange (j : Journal) : ∀ r ∈ (accepted j).reverse, r.InRange := by
  intro r hr
  obtain ⟨⟨t, entry⟩, -, hentry⟩ := List.mem_filterMap.mp (List.mem_reverse.mp hr)
  cases entry with
  | command => exact confirmed_inRange hentry
  | background => cases hentry

theorem accepted_cons (e : Nat × Entry) (j : Journal) :
    accepted (e :: j) = e.2.confirms.toList ++ accepted j := by
  cases h : e.2.confirms <;> simp [accepted, h]

/-- The log holds what the responses confirmed, in order. -/
theorem file_of_reaches (haof : cfg.aof = true)
    (hr : (system cfg lib buckets memoryLimit maxValueSize).Reaches j n) :
    n.file = append lib [] (accepted j).reverse := by
  refine hr.invariant (P := fun j n => n.file = append lib [] (accepted j).reverse)
    (fun n hn => hn.2.2) fun j n e n' _ ih hs => ?_
  cases hs with
  | background step => exact ih
  | command buckets spare cmd =>
    have hlogged := (n.effect haof buckets spare cmd).logged
    have hreverse : ∀ call : Option Record, call.toList.reverse = call.toList := by
      intro call
      cases call <;> rfl
    rw [accepted_cons, List.reverse_append, append_append, ← ih, hlogged, ← hreverse]
    rfl

end Server

end PolyCache
