import PolyCache.Server.Command
import PolyCache.Storage.Expiry

/-!
# Which keys GET and DEL find

`get` asks the TTL table for the deadline of a key before it looks the key up. `del` looks it up at
once, so that it still finds a key that has expired and that the sweeper has not come to.
-/

namespace PolyCache

open Protocol History

namespace Server

/-- `del` finds the key if and only if `get` would, and without it `DEL` answers `:0` and logs
nothing. -/
structure Agrees (cfg : Config) (now : Nat) (s : Storage) (key : Bytes) : Prop where
  present : (s.del key).1 = true ↔ (s.get now key).1.isSome
  absent : (s.get now key).1 = none → ∀ (env : Env) (fault : Option Fault) (cmd : Command)
    (rest : List Bytes), cmd.type = .del → cmd.args = key :: rest →
    (executeCommand cfg env fault cmd s).response = { head := ascii ":0" } ∧
      (executeCommand cfg env fault cmd s).logged = []

variable {cfg : Config} {now : Nat} {s : Storage} {key : Bytes}

theorem executeCommand_del_absent {env : Env} {fault : Option Fault} {cmd : Command}
    {rest : List Bytes} (htype : cmd.type = .del) (hargs : cmd.args = key :: rest)
    (hm : s.data.lookup key = none) :
    executeCommand cfg env fault cmd s = ⟨{ head := ascii ":0" }, s, []⟩ := by
  simp only [executeCommand, htype, hargs, Storage.del_of_absent hm]
  rfl

/-- They agree on a key unless its deadline has passed and it is still stored. -/
theorem agrees_iff_unexpired : Agrees cfg now s key ↔
    ¬ ((s.data.lookup key).isSome ∧ (s.ttl.isExpired now key).1 = true) := by
  have hget := Storage.get_isSome s now key
  constructor
  · rintro hagrees ⟨hstored, hexpired⟩
    have hfound := hagrees.present.mp ((Storage.del_fst s key).trans hstored)
    rw [(hget.mp hfound).2] at hexpired
    exact Bool.false_ne_true hexpired
  · intro hfresh
    have hpresent : (s.data.lookup key).isSome ↔ (s.get now key).1.isSome := by
      refine ⟨fun hstored => hget.mpr ⟨hstored, ?_⟩, fun hfound => (hget.mp hfound).1⟩
      exact Bool.eq_false_iff.mpr fun hexpired => hfresh ⟨hstored, hexpired⟩
    refine ⟨by rw [Storage.del_fst]; exact hpresent, fun hnone env fault cmd rest htype hargs => ?_⟩
    have hm : s.data.lookup key = none := by
      refine Option.not_isSome_iff_eq_none.mp fun hstored => ?_
      rw [hpresent, hnone] at hstored
      exact Bool.false_ne_true hstored
    rw [executeCommand_del_absent htype hargs hm]
    exact ⟨rfl, rfl⟩

end Server

namespace World

variable {buckets memoryLimit maxValueSize : Nat} {h : History} {w : World} {key : Bytes}

/-- In the terms of the run, the two disagree on a key from the deadline of its last `set` until a
sweep pass collects it, for as long as the store has it. -/
theorem get_del_agree_iff (hr : (system buckets memoryLimit maxValueSize).Reaches h w)
    (cfg : Server.Config) (now : Nat) : Server.Agrees cfg now w.storage key ↔
      ¬ ((w.storage.data.lookup key).isSome ∧ collected key h = false ∧
        ∃ t r, lastSet key h = some (t, r) ∧ 0 < r.ttl ∧ TTLManager.deadline t r.ttl ≤ now) := by
  have ht := tracks_of_reaches hr
  rw [Server.agrees_iff_unexpired, not_iff_not, TTLManager.isExpired_iff]
  constructor
  · rintro ⟨hstored, d, hd, hle⟩
    obtain ⟨hcollected, t, r, hlast, hpos, rfl⟩ := ht.deadline key d hd
    exact ⟨hstored, hcollected, t, r, hlast, hpos, hle⟩
  · rintro ⟨hstored, hcollected, t, r, hlast, hpos, hle⟩
    obtain ⟨m, hm⟩ := Option.isSome_iff_exists.mp hstored
    exact ⟨hstored, _, ht.armed key m t r hm hlast hpos hcollected, hle⟩

/-- At its deadline the key `k` is gone for both as soon as a pass has come to it. -/
theorem get_del_agree_swept : Server.Agrees ⟨true, 1024, fun _ => []⟩ ticksPerSecond
    (swept.storage.expireKey [107]) [107] := by
  have hr := swept_reaches.next (Step.expire swept [107] [] rfl)
  apply (get_del_agree_iff hr ⟨true, 1024, fun _ => []⟩ ticksPerSecond).mpr
  rintro ⟨hstored, -⟩
  exact absurd hstored (by decide)

/-- `SET k 1 EX 1`, and a second later `GET k` finds nothing and `DEL k` answers `:1`. -/
theorem expired_key_deleted : ¬ ∀ (buckets memoryLimit maxValueSize : Nat) (h : History)
    (w : World) (cfg : Server.Config) (key : Bytes) (now : Nat),
    (system buckets memoryLimit maxValueSize).Reaches h w → w.now ≤ now →
    Server.Agrees cfg now w.storage key := by
  intro hall
  have hagrees := hall _ _ _ _ _ ⟨true, 1024, fun _ => []⟩ [107] _ due_reaches le_rfl
  exact absurd (hagrees.present.mp (by decide)) (by decide)

end World

end PolyCache
