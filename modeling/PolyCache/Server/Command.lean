import PolyCache.Aof.Log
import PolyCache.Library.Resp
import PolyCache.Protocol.Parser
import PolyCache.Storage.Model

/-!
# Commands and their responses

`Server::execute_command` of `src/server.cpp`, and the bytes that `queue_response` makes of what
it returns. The log is not written here: the outcome of a command lists the records that it would
append, in order.
-/

namespace PolyCache

open Protocol

namespace Server

/-! ## Option parsing -/

/-- `stoi`, for a text that is a sign, if any, and digits. -/
def parseInt : Bytes → Option Int
  | [] => none
  | c :: rest =>
    let digits := if c = 45 ∨ c = 43 then rest else c :: rest
    if digits = [] then none
    else if digits.all fun c => Decimal.IsDigit c then
      let v : Int := if c = 45 then -Decimal.value digits else Decimal.value digits
      if -2 ^ 31 ≤ v ∧ v < 2 ^ 31 then some v else none
    else none

/-- `tolower` in the C locale. -/
def toLower (c : UInt8) : UInt8 := if 65 ≤ c ∧ c ≤ 90 then c + 32 else c

def lowercase (text : Bytes) : Bytes := text.map toLower

/-- The loop over the options of `SET`: the ttl, or the head of the error reply. `first` stands for
`k == 2`. -/
def scanOptions (first sawExpiry : Bool) (ttl : Int) : List Bytes → Except Bytes Int
  | [] => .ok ttl
  | text :: rest =>
    let opt := lowercase text
    if opt = ascii "ex" ∨ opt = ascii "px" then
      match rest with
      | [] => .error (ascii "-ERR syntax error")
      | amount :: rest =>
        match parseInt amount with
        | none => .error (ascii "-ERR invalid expire value")
        | some amount =>
          if amount ≤ 0 then .error (ascii "-ERR invalid expire value")
          else
            -- a px amount is rounded up to seconds
            let ttl := if opt = ascii "px" then
                amount / 1000 + if amount % 1000 ≠ 0 then 1 else 0
              else amount
            scanOptions false true ttl rest
    else
      match if first && !sawExpiry then parseInt text else none with
      | some legacyTtl => scanOptions false sawExpiry legacyTtl rest
      | none => .error (ascii "-ERR unsupported SET option: " ++ text)

/-! ## Responses -/

structure Response where
  head : Bytes
  blob : Option Bytes := none
  tail : Bytes := []
  deriving DecidableEq, Repr

/-- The completion of a head by `queue_response`. -/
def Response.complete (r : Response) : Response :=
  if r.blob = none ∧ ¬ CRLF <:+ r.head then { r with head := r.head ++ CRLF } else r

def Response.bytes (r : Response) : Bytes := r.head ++ r.blob.getD [] ++ r.tail

/-- The bytes that go to the outbox. -/
def Response.frame (r : Response) : Bytes := r.complete.bytes

/-- A head, a shared blob and a line end. -/
def bulk (blob : Bytes) : Response :=
  { head := 36 :: Decimal.numeral blob.length ++ CRLF, blob := some blob, tail := CRLF }

/-! ## Commands -/

structure Config where
  /-- `aof_ != nullptr` -/
  aof : Bool
  maxValueSize : Nat
  /-- `metrics().dump()` -/
  metricsDump : Storage → Bytes

/-- What a command finds outside the program: the time, the bucket count an insertion grows to, and
the capacity that the value's buffer has in excess of its size. -/
structure Env where
  now : Nat
  buckets : Nat
  spare : Nat
  deriving DecidableEq

/-- The allocations whose failure `execute_command` catches. -/
inductive Fault where
  | blob
  | log
  | store (p : Storage.AllocPoint)
  deriving DecidableEq, Repr

/-- The allocation that throws in `set`, if any. -/
def storePoint : Option Fault → Option Storage.AllocPoint
  | some (.store p) => some p
  | _ => none

/-- A response, the store and the records to log. -/
structure Outcome where
  response : Response
  storage : Storage
  logged : List Aof.Record := []

def reply (head : String) (s : Storage) : Outcome := ⟨{ head := ascii head }, s, []⟩

def withSpare (text : Bytes) (spare : Nat) : Str :=
  ⟨text, text.length + spare, Nat.le_add_right _ _⟩

variable (cfg : Config) (env : Env) (fault : Option Fault)

/-- The `try` block of `SET`: log, then store. -/
def storeLogged (s : Storage) (key text : Bytes) (ttl : Int) : Outcome :=
  if cfg.aof ∧ fault = some .log then reply "-ERR out of memory" s
  else
    let logged := if cfg.aof then [Aof.Record.set key text ttl] else []
    let value := withSpare text env.spare
    let run := s.trySet env.now env.buckets key value ttl (storePoint fault)
    ⟨{ head := if run.1.isSome then ascii "+OK" else ascii "-ERR out of memory" }, run.2, logged⟩

def executeSet (s : Storage) : List Bytes → Outcome
  | key :: text :: options =>
    if key.length > Storage.kMaxKeySize then reply "-ERR key too large" s
    else if text.length > cfg.maxValueSize then reply "-ERR value too large (max-value-size)" s
    else
      match scanOptions true false 0 options with
      | .error head => ⟨{ head := head }, s, []⟩
      | .ok ttl =>
        if s.canStore key (withSpare text env.spare) then storeLogged cfg env fault s key text ttl
        else reply "-ERR value too large for memory limit" s
  | _ => reply "-ERR wrong number of arguments for SET" s

def executeCommand (cmd : Command) (s : Storage) : Outcome :=
  match cmd.type with
  | .ping =>
    match cmd.args with
    | [] => reply "+PONG" s
    | text :: _ => if fault = some .blob then reply "-ERR out of memory" s else ⟨bulk text, s, []⟩
  | .select => reply "+OK" s
  | .set => executeSet cfg env fault s cmd.args
  | .get =>
    match cmd.args with
    | [] => reply "-ERR wrong number of arguments for GET" s
    | key :: _ =>
      match s.get env.now key with
      | (none, s) => reply "$-1" s
      | (some blob, s) => ⟨bulk blob, s, []⟩
  | .del =>
    match cmd.args with
    | [] => reply "-ERR wrong number of arguments for DEL" s
    | key :: _ =>
      match s.del key with
      | (true, s) => ⟨{ head := ascii ":1" }, s, if cfg.aof then [.del key] else []⟩
      | (false, s) => reply ":0" s
  | .metrics =>
    let json := cfg.metricsDump s
    ⟨{ head := 36 :: Decimal.numeral json.length ++ CRLF ++ json ++ CRLF }, s, []⟩
  | .unknown =>
    if cmd.verb = [] then reply "" s
    else ⟨{ head := ascii "-ERR unknown command '" ++ cmd.verb ++ ascii "'" }, s, []⟩

end Server

end PolyCache
