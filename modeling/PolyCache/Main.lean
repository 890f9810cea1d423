import PolyCache.Server.Connection

/-!
# The command line

`main` of `src/main.cpp` up to the start of the server: the options, the checks and the limits that
the store and the parsers are given. Sizes are 64-bit words here, as `size_t` is.
-/

namespace PolyCache

open Protocol Server

namespace Main

/-! ## Numbers -/

/-- `isspace` in the C locale. -/
def isSpace (c : UInt8) : Bool := c = 32 || (9 ≤ c && c ≤ 13)

/-- What `strtol` and `strtoul` find in a text: whether there is a minus sign, and the number. What
follows the digits is ignored. -/
def scanNumber (text : Bytes) : Option (Bool × Nat) :=
  let text := text.dropWhile isSpace
  let rest := if text.head? = some 45 ∨ text.head? = some 43 then text.tail else text
  let digits := rest.takeWhile fun c => Decimal.IsDigit c
  if digits = [] then none else some (text.head? = some 45, Decimal.value digits)

/-- `stoul`. A minus sign negates the word. -/
def stoul (text : Bytes) : Option UInt64 :=
  match scanNumber text with
  | none => none
  | some (negative, n) =>
    if n < 2 ^ 64 then some (if negative then -UInt64.ofNat n else UInt64.ofNat n) else none

def stoi (text : Bytes) : Option Int :=
  match scanNumber text with
  | none => none
  | some (negative, n) =>
    let v : Int := if negative then -n else n
    if -2 ^ 31 ≤ v ∧ v < 2 ^ 31 then some v else none

/-! ## Options -/

structure Options where
  port : Int := 6379
  adminPort : Int := 8080
  memoryMb : UInt64 := 1024
  maxValueMb : UInt64 := 512
  aofFile : Bytes := ascii "polycache.aof"
  useAof : Bool := true
  deriving DecidableEq

/-- The options that have a value, with what the value does; it may be no number. -/
def valueOption (arg : Bytes) : Option (Bytes → Options → Option Options) :=
  if arg = ascii "--port" then
    some fun text o => (stoi text).map fun n => { o with port := n }
  else if arg = ascii "--admin-port" then
    some fun text o => (stoi text).map fun n => { o with adminPort := n }
  else if arg = ascii "--memory-limit" then
    some fun text o => (stoul text).map fun n => { o with memoryMb := n }
  else if arg = ascii "--max-value-size" then
    some fun text o => (stoul text).map fun n => { o with maxValueMb := n }
  else if arg = ascii "--aof-file" then
    some fun text o => some { o with aofFile := text }
  else none

/-- The program goes on with these options, or ends with a code and a message. -/
inductive Start where
  | run (o : Options)
  | exit (code : Nat) (message : Bytes)
  deriving DecidableEq

def usage (prog : Bytes) : Bytes :=
  ascii "usage: " ++ prog ++
    ascii (" [--port PORT] [--admin-port PORT] [--memory-limit MB] " ++
      "[--max-value-size MB] [--aof-file FILE] [--no-aof]\n")

/-- The checks after the options. -/
def checkOptions (o : Options) : Start :=
  if o.memoryMb = 0 ∨ o.maxValueMb = 0 then
    .exit 1 (ascii "--memory-limit and --max-value-size must be at least 1MB\n")
  else .run o

/-- The loop over `argv[1]` and what follows it. -/
def parseOptions (prog : Bytes) : List Bytes → Options → Start
  | [], o => checkOptions o
  | arg :: args, o =>
    match valueOption arg with
    | some set =>
      match args with
      | [] => .exit 1 (ascii "missing value for " ++ arg ++ ascii "\n")
      | text :: args =>
        match set text o with
        | none => .exit 1 (ascii "invalid numeric value for " ++ arg ++ ascii "\n")
        | some o => parseOptions prog args o
    | none =>
      if arg = ascii "--no-aof" then parseOptions prog args { o with useAof := false }
      else if arg = ascii "--help" ∨ arg = ascii "-h" then .exit 0 (usage prog)
      else .exit 1 (ascii "unknown option: " ++ arg ++ ascii "\n" ++ usage prog)

def start (prog : Bytes) (args : List Bytes) : Start := parseOptions prog args {}

namespace Options

def memoryBytes (o : Options) : UInt64 := o.memoryMb * 1024 * 1024

def maxValueBytes (o : Options) : UInt64 := o.maxValueMb * 1024 * 1024

/-- The store that `main` makes. -/
def storage (o : Options) (buckets : Nat) : Storage :=
  Storage.init buckets o.memoryBytes.toNat o.maxValueBytes.toNat

/-- The server that `main` makes. -/
def config (o : Options) (metricsDump : Storage → Bytes) : Config :=
  ⟨o.useAof, o.maxValueBytes.toNat, metricsDump⟩

end Options

end Main

end PolyCache
