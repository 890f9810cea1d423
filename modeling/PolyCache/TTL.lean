import PolyCache.Basic
import PolyCache.Library.AssocMap

/-!
# Deadlines

`TTLManager` is the table of `src/ttl.cpp`: a deadline for each key that has one. Times are ticks
of the steady clock, `ticksPerSecond` of them to a second, and each operation that reads the
clock is given the time it reads.
-/

namespace PolyCache

open AssocMap

/-- The steady clock counts nanoseconds. -/
def ticksPerSecond : Nat := 1000000000

structure TTLManager where
  expiries : Map Bytes Nat := ∅

namespace TTLManager

/-- `steady_clock::now() + seconds` -/
def deadline (now : Nat) (seconds : Int) : Nat := now + seconds.toNat * ticksPerSecond

def erase (t : TTLManager) (key : Bytes) : TTLManager := ⟨t.expiries.erase key⟩

def setTtl (t : TTLManager) (now : Nat) (key : Bytes) (seconds : Int) : TTLManager :=
  if seconds ≤ 0 then t.erase key else ⟨t.expiries.insert key (deadline now seconds)⟩

/-- Whether the deadline of `key` has passed; a deadline that has is erased. -/
def isExpired (t : TTLManager) (now : Nat) (key : Bytes) : Bool × TTLManager :=
  match t.expiries.lookup key with
  | none => (false, t)
  | some d => if d ≤ now then (true, t.erase key) else (false, t)

/-- The keys whose deadline has passed, and the table without their deadlines. -/
def expiredKeys (t : TTLManager) (now : Nat) : List Bytes × TTLManager :=
  ((filter (fun _ d => d ≤ now) t.expiries).keys, ⟨filter (fun _ d => ¬ d ≤ now) t.expiries⟩)

variable {t : TTLManager} {now : Nat} {key k : Bytes}

theorem lookup_erase :
    (t.erase key).expiries.lookup k = if k = key then none else t.expiries.lookup k :=
  lookup_erase_eq_ite _ _ _

theorem lookup_setTtl {seconds : Int} :
    (t.setTtl now key seconds).expiries.lookup k =
      if k = key then (if 0 < seconds then some (deadline now seconds) else none)
      else t.expiries.lookup k := by
  by_cases hpos : 0 < seconds
  · simp [setTtl, hpos, Int.not_le.mpr hpos, lookup_insert_eq_ite]
  · simp [setTtl, hpos, Int.not_lt.mp hpos, lookup_erase]

theorem isExpired_iff :
    (t.isExpired now key).1 = true ↔ ∃ d, t.expiries.lookup key = some d ∧ d ≤ now := by
  cases h : t.expiries.lookup key with
  | none => simp [isExpired, h]
  | some d => by_cases hd : d ≤ now <;> simp [isExpired, h, hd]

theorem isExpired_false (h : (t.isExpired now key).1 = false) : (t.isExpired now key).2 = t := by
  cases hl : t.expiries.lookup key with
  | none => simp [isExpired, hl]
  | some d =>
    by_cases hd : d ≤ now
    · simp [isExpired, hl, hd] at h
    · simp [isExpired, hl, hd]

theorem isExpired_true (h : (t.isExpired now key).1 = true) :
    (t.isExpired now key).2 = t.erase key := by
  obtain ⟨d, hl, hd⟩ := isExpired_iff.mp h
  simp [isExpired, hl, hd]

theorem mem_expiredKeys :
    key ∈ (t.expiredKeys now).1 ↔ ∃ d, t.expiries.lookup key = some d ∧ d ≤ now := by
  rw [expiredKeys, ← AList.mem_keys, ← AList.lookup_isSome, lookup_filter]
  cases h : t.expiries.lookup key <;> simp [Option.filter]

theorem lookup_expiredKeys :
    (t.expiredKeys now).2.expiries.lookup key =
      (t.expiries.lookup key).filter fun d => ¬ d ≤ now := lookup_filter _ _ _

end TTLManager

end PolyCache
