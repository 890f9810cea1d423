import PolyCache.Server.Reply
import PolyCache.Storage.Failure

/-!
# Logging before storing

`SET` writes its record before it stores the value, and each of the two may run out of memory.
This module says what a refused and what an acknowledged `SET` leave in the log and in the store.
-/

namespace PolyCache

open Protocol

namespace Server

/-- A `SET` that passes every check of the server. -/
structure Admitted (cfg : Config) (env : Env) (s : Storage) (args : List Bytes) (key text : Bytes)
    (ttl : Int) : Prop where
  options : ∃ options, args = key :: text :: options ∧ scanOptions true false 0 options = .ok ttl
  keySize : key.length ≤ Storage.kMaxKeySize
  textSize : text.length ≤ cfg.maxValueSize
  fits : s.canStore key (withSpare text env.spare) = true

/-- The `SET` comes to an allocation of `Storage::set` that throws. -/
def StoreThrows (cfg : Config) (env : Env) (fault : Option Fault) (s : Storage)
    (args : List Bytes) : Prop :=
  ∃ key text ttl p, Admitted cfg env s args key text ttl ∧ fault = some (.store p) ∧
    s.allocates key ttl p = true

/-- An error leaves the log and the store alone, and `+OK` means one record and its value stored. -/
structure Settled (env : Env) (s : Storage) (args : List Bytes) (o : Outcome) : Prop where
  refused : ascii "-ERR" <+: o.response.head → o.logged = [] ∧
    (∀ k, (o.storage.data.lookup k).map KeyMeta.value = (s.data.lookup k).map KeyMeta.value) ∧
    ∀ k, o.storage.ttl.expiries.lookup k = s.ttl.expiries.lookup k
  stored : o.response.head = ascii "+OK" → ∃ key text options ttl,
    args = key :: text :: options ∧ scanOptions true false 0 options = .ok ttl ∧
    o.logged = [.set key text ttl] ∧
    s.set env.now env.buckets key (withSpare text env.spare) ttl = (true, o.storage)

variable {cfg : Config} {env : Env} {fault : Option Fault} {s : Storage} {args : List Bytes}
  {key text : Bytes} {ttl : Int}

theorem scanOptions_error {options : List Bytes} {head : Bytes}
    (h : scanOptions true false 0 options = .error head) : ascii "-ERR" <+: head := by
  have hscanned := scanned_scanOptions true false 0 options fun _ => rfl
  rw [h] at hscanned
  cases hstop : unsupported true options with
  | some opt =>
    rw [hstop] at hscanned
    cases hscanned
    have hprefix : ascii "-ERR" <+: ascii "-ERR unsupported SET option: " := by decide
    exact hprefix.trans (List.prefix_append _ _)
  | none =>
    rw [hstop] at hscanned
    obtain ⟨ttl, heq⟩ | heq | heq := hscanned <;> cases heq <;> decide

theorem executeSet_of_admitted (h : Admitted cfg env s args key text ttl) :
    executeSet cfg env fault s args = storeLogged cfg env fault s key text ttl := by
  obtain ⟨options, rfl, hscan⟩ := h.options
  rw [executeSet, if_neg (Nat.not_lt.mpr h.keySize), if_neg (Nat.not_lt.mpr h.textSize), hscan]
  exact if_pos h.fits

/-- A `SET` that is not admitted answers an error and does nothing. -/
theorem executeSet_of_refused (h : ∀ key text ttl, ¬ Admitted cfg env s args key text ttl) :
    ∃ head, ascii "-ERR" <+: head ∧
      executeSet cfg env fault s args = ⟨{ head := head }, s, []⟩ := by
  match args, h with
  | [], _ | [_], _ => exact ⟨_, by decide, rfl⟩
  | key :: text :: options, h =>
    rw [executeSet]
    split_ifs with hkey htext hfits
    · exact ⟨_, by decide, rfl⟩
    · exact ⟨_, by decide, rfl⟩
    · cases hscan : scanOptions true false 0 options with
      | error head => exact ⟨head, scanOptions_error hscan, rfl⟩
      | ok ttl =>
        exact absurd ⟨⟨options, rfl, hscan⟩, Nat.not_lt.mp hkey, Nat.not_lt.mp htext, hfits⟩
          (h key text ttl)
    · cases hscan : scanOptions true false 0 options with
      | error head => exact ⟨head, scanOptions_error hscan, rfl⟩
      | ok ttl => exact ⟨_, by decide, rfl⟩

theorem settled_of_error {head : Bytes} (h : ascii "-ERR" <+: head) :
    Settled env s args ⟨{ head := head }, s, []⟩ where
  refused _ := ⟨rfl, fun _ => rfl, fun _ => rfl⟩
  stored heq := by
    rw [show head = ascii "+OK" from heq] at h
    exact absurd h (by decide)

/-- An admitted `SET` settles unless an allocation of `Storage::set` throws, since its record is
then in the log already. -/
theorem settled_storeLogged (haof : cfg.aof = true) (h : Admitted cfg env s args key text ttl) :
    Settled env s args (storeLogged cfg env fault s key text ttl) ↔
      ¬ ∃ p, fault = some (.store p) ∧ s.allocates key ttl p = true := by
  by_cases hthrows : ∃ p, fault = some (.store p) ∧ s.allocates key ttl p = true
  · obtain ⟨p, rfl, halloc⟩ := hthrows
    refine iff_of_false (fun hsettled => ?_) fun hnot => hnot ⟨p, rfl, halloc⟩
    have hlogged := hsettled.refused
    simp [storeLogged, storePoint, Storage.trySet, h.fits, halloc, haof] at hlogged
    exact hlogged (by decide)
  · refine iff_of_true ?_ hthrows
    by_cases hlog : fault = some .log
    · rw [storeLogged, if_pos ⟨haof, hlog⟩]
      exact settled_of_error (by decide)
    · have hsilent : ∀ p, storePoint fault = some p → s.allocates key ttl p = false := by
        intro p hp
        refine Bool.eq_false_iff.mpr fun halloc => hthrows ⟨p, ?_, halloc⟩
        unfold storePoint at hp
        split at hp <;> simp_all
      have hset := Storage.set_fst s env.now env.buckets key (withSpare text env.spare) ttl
      obtain ⟨options, hargs, hscan⟩ := h.options
      rw [storeLogged, if_neg fun hboth => hlog hboth.2]
      simp only [Storage.trySet_of_silent hsilent, haof, if_true, Option.isSome_some]
      have hok : ¬ ascii "-ERR" <+: ascii "+OK" := by decide
      exact ⟨fun hbad => absurd hbad hok, fun _ =>
        ⟨key, text, options, ttl, hargs, hscan, rfl, Prod.ext (hset.trans h.fits) rfl⟩⟩

/-- A `SET` command settles if and only if no allocation of `Storage::set` throws in it. -/
theorem settled_iff (haof : cfg.aof = true) {cmd : Command} (htype : cmd.type = .set) :
    Settled env s cmd.args (executeCommand cfg env fault cmd s) ↔
      ¬ StoreThrows cfg env fault s cmd.args := by
  have hexec : executeCommand cfg env fault cmd s = executeSet cfg env fault s cmd.args := by
    simp [executeCommand, htype]
  rw [hexec]
  by_cases hadmitted : ∃ key text ttl, Admitted cfg env s cmd.args key text ttl
  · obtain ⟨key, text, ttl, h⟩ := hadmitted
    rw [executeSet_of_admitted h, settled_storeLogged haof h, not_iff_not]
    constructor
    · rintro ⟨p, hfault, halloc⟩
      exact ⟨key, text, ttl, p, h, hfault, halloc⟩
    · rintro ⟨key', text', ttl', p, h', hfault, halloc⟩
      obtain ⟨options, hargs, hscan⟩ := h.options
      obtain ⟨options', hargs', hscan'⟩ := h'.options
      rw [hargs] at hargs'
      cases hargs'
      rw [hscan] at hscan'
      cases hscan'
      exact ⟨p, hfault, halloc⟩
  · have hnone : ∀ key text ttl, ¬ Admitted cfg env s cmd.args key text ttl :=
      fun key text ttl h => hadmitted ⟨key, text, ttl, h⟩
    obtain ⟨head, hhead, heq⟩ : ∃ head, ascii "-ERR" <+: head ∧
        executeSet cfg env fault s cmd.args = ⟨{ head := head }, s, []⟩ :=
      executeSet_of_refused hnone
    rw [heq]
    exact iff_of_true (settled_of_error hhead) fun ⟨key, text, ttl, _, h, _⟩ => hnone key text ttl h

/-- The log fails first, and nothing has happened. -/
theorem settled_log_fault : Settled ⟨0, 1, 14⟩ (Storage.init 1 1024 1024) [[107], [1]]
    (executeCommand ⟨true, 1024, fun _ => []⟩ ⟨0, 1, 14⟩ (some .log) ⟨.set, [], [[107], [1]]⟩
      (Storage.init 1 1024 1024)) := by
  have htype : Command.type ⟨.set, [], [[107], [1]]⟩ = .set := rfl
  refine (settled_iff rfl htype).mpr ?_
  rintro ⟨_, _, _, p, -, hfault, -⟩
  exact nomatch hfault

/-- The list node fails: the client is told that the memory is out, and the value is logged and
stored all the same. -/
theorem failed_set_logged : ¬ ∀ (cfg : Config) (env : Env) (fault : Option Fault) (s : Storage)
    (cmd : Command), cfg.aof = true → cmd.type = .set →
    Settled env s cmd.args (executeCommand cfg env fault cmd s) := by
  intro hall
  have hsettled := hall ⟨true, 1024, fun _ => []⟩ ⟨0, 1, 14⟩ (some (.store .listNode))
    (Storage.init 1 1024 1024) ⟨.set, [], [[107], [1]]⟩ rfl rfl
  exact absurd (hsettled.refused (by decide)).1 (by decide)

end Server

end PolyCache
