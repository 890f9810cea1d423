import PolyCache.Basic
import PolyCache.Library.Decimal

/-!
# The incremental RESP2 parser

`Parser.consume` is `src/protocol.cpp`. The C++ loop `for (;;) switch (state_)` is `Parser.turn`,
which either goes round again with fewer bytes or returns to the caller, and `Parser.loop`, which
goes round. The allocation of a bulk argument may fail, which depends on `alloc`, the lengths that
the allocator can serve.
-/

namespace PolyCache

namespace Protocol

inductive CommandType where
  | set | get | del | metrics | ping | select | unknown
  deriving DecidableEq, Repr

structure Command where
  type : CommandType := .unknown
  verb : Bytes := []
  args : List Bytes := []
  deriving DecidableEq, Repr

/-! ## Header lines -/

inductive LineStatus where
  | needMore | ok | bad
  deriving DecidableEq, Repr

/-- Read one header line into `out`, at most 32 bytes of it. The status, the bytes left and the
line so far, without its line end. -/
def readLine : Bytes → Bytes → LineStatus × Bytes × Bytes
  | [], out => (.needMore, [], out)
  | c :: data, out =>
    if c = LF then (.ok, data, if out.getLast? = some CR then out.dropLast else out)
    else if 32 < (out ++ [c]).length then (.bad, data, out ++ [c])
    else readLine data (out ++ [c])

def parseUint (text : Bytes) : Option Nat :=
  if text = [] ∨ 18 < text.length then none
  else if text.all fun c => Decimal.IsDigit c then some (Decimal.value text)
  else none

/-- A header line with its tag: `header_[0] != tag || !parse_uint(header_.substr(1), value)`. -/
def parseHeader (tag : UInt8) : Bytes → Option Nat
  | [] => none
  | c :: text => if c = tag then parseUint text else none

/-! ## Commands -/

/-- `toupper` in the C locale. -/
def toUpper (c : UInt8) : UInt8 := if 97 ≤ c ∧ c ≤ 122 then c - 32 else c

/-- The verbs with their types. -/
def verbs : List (Bytes × CommandType) :=
  [(ascii "SET", .set), (ascii "GET", .get), (ascii "DEL", .del), (ascii "METRICS", .metrics),
    (ascii "PING", .ping), (ascii "SELECT", .select)]

def classify : List Bytes → Command
  | [] => {}
  | verb :: args =>
    { type := (verbs.lookup (verb.map toUpper)).getD .unknown, verb := verb, args := args }

/-! ## The parser -/

inductive State where
  | arrayLen | bulkLen | payload | trailer | trailerLf | ready | failed
  deriving DecidableEq, Repr

structure Parser where
  maxBulkLen : Nat
  state : State := .arrayLen
  header : Bytes := []
  error : Bytes := []
  argc : Nat := 0
  argIndex : Nat := 0
  bulkLen : Nat := 0
  bulkRead : Nat := 0
  args : List Bytes := []
  deriving DecidableEq, Repr

namespace Parser

def kMaxArgs : Nat := 1024

/-- The constructor. -/
def init (maxBulkLen : Nat) : Parser := { maxBulkLen := maxBulkLen }

/-- What a call of `consume` returns: the status, the parser, the bytes left and, on `ready`, the
command. -/
inductive Consumed where
  | needMore (p : Parser) (rest : Bytes)
  | ready (command : Command) (p : Parser) (rest : Bytes)
  | error (p : Parser) (rest : Bytes)
  deriving DecidableEq, Repr

/-- One turn of the loop. -/
inductive Turn where
  | again (p : Parser) (data : Bytes)
  | stop (result : Consumed)

def fail (p : Parser) (message : String) (rest : Bytes) : Turn :=
  .stop (.error { p with state := .failed, error := ascii message } rest)

/-- `memcpy(buffer.data() + offset, source.data(), source.size())` -/
def writeAt (buffer : Bytes) (offset : Nat) (source : Bytes) : Bytes :=
  buffer.take offset ++ source ++ buffer.drop (offset + source.length)

/-- The copy into `args_.back()`. -/
def fillBack (args : List Bytes) (offset : Nat) (source : Bytes) : List Bytes :=
  match args.getLast? with
  | none => args
  | some buffer => args.dropLast ++ [writeAt buffer offset source]

/-- The end of an argument: the next one, or the command is complete. -/
def nextArg (p : Parser) : Parser :=
  { p with
    argIndex := p.argIndex + 1
    state := if p.argIndex + 1 < p.argc then .bulkLen else .ready }

def turnArrayLen (p : Parser) (data : Bytes) : Turn :=
  match readLine data p.header with
  | (.needMore, rest, header) => .stop (.needMore { p with header := header } rest)
  | (.bad, rest, header) => { p with header := header }.fail "invalid array header" rest
  | (.ok, rest, header) =>
    let p := { p with header := [] }
    match parseHeader 42 header with
    | none => p.fail "invalid array length" rest
    | some count =>
      if kMaxArgs < count then p.fail "too many arguments" rest
      else .again { p with
        argc := count
        argIndex := 0
        args := []
        state := if count = 0 then .ready else .bulkLen } rest

variable (alloc : Nat → Bool)

def turnBulkLen (p : Parser) (data : Bytes) : Turn :=
  match readLine data p.header with
  | (.needMore, rest, header) => .stop (.needMore { p with header := header } rest)
  | (.bad, rest, header) => { p with header := header }.fail "invalid bulk header" rest
  | (.ok, rest, header) =>
    let p := { p with header := [] }
    match parseHeader 36 header with
    | none => p.fail "invalid bulk length" rest
    | some bulkLen =>
      if p.maxBulkLen < bulkLen then p.fail "bulk length exceeds max-value-size" rest
      else if ¬ alloc bulkLen then { p with args := p.args ++ [[]] }.fail "out of memory" rest
      else .again { p with
        args := p.args ++ [List.replicate bulkLen 0]
        bulkLen := bulkLen
        bulkRead := 0
        state := if bulkLen = 0 then .trailer else .payload } rest

def turnPayload (p : Parser) (data : Bytes) : Turn :=
  let take := min (p.bulkLen - p.bulkRead) data.length
  let p := { p with
    args := fillBack p.args p.bulkRead (data.take take)
    bulkRead := p.bulkRead + take }
  if p.bulkRead < p.bulkLen then .stop (.needMore p (data.drop take))
  else .again { p with state := .trailer } (data.drop take)

def turnTrailer (p : Parser) : Bytes → Turn
  | [] => .stop (.needMore p [])
  | c :: rest =>
    if c = CR then .again { p with state := .trailerLf } rest
    else if c = LF then .again p.nextArg rest
    else p.fail "expected CRLF after bulk payload" rest

def turnTrailerLf (p : Parser) : Bytes → Turn
  | [] => .stop (.needMore p [])
  | c :: rest => if c = LF then .again p.nextArg rest else p.fail "expected LF after CR" rest

def turn (p : Parser) (data : Bytes) : Turn :=
  match p.state with
  | .ready => .stop (.ready (classify p.args) { p with args := [], state := .arrayLen } data)
  | .failed => .stop (.error p data)
  | .arrayLen => p.turnArrayLen data
  | .bulkLen => p.turnBulkLen alloc data
  | .payload => p.turnPayload data
  | .trailer => p.turnTrailer data
  | .trailerLf => p.turnTrailerLf data

/-- `rounds` turns; `consume` never comes to the end of them. -/
def loop : Nat → Parser → Bytes → Consumed
  | 0, p, data => .needMore p data
  | rounds + 1, p, data =>
    match p.turn alloc data with
    | .again p data => loop rounds p data
    | .stop result => result

def consume (p : Parser) (data : Bytes) : Consumed := loop alloc (2 * data.length + 2) p data

/-! ## The caller's loop -/

/-- The commands a received buffer yields, the parser it leaves and the bytes not taken. -/
structure Fed where
  commands : List Command
  parser : Parser
  rest : Bytes
  deriving DecidableEq, Repr

/-- `while (left > 0)` around `consume`: go on after `Ready`, leave on `NeedMore` and on `Error`.
Each `Ready` takes a byte, so one round for each byte, and one more, are enough. -/
def feedLoop : Nat → Parser → Bytes → Fed
  | 0, p, data => ⟨[], p, data⟩
  | rounds + 1, p, data =>
    if data = [] then ⟨[], p, []⟩
    else
      match p.consume alloc data with
      | .needMore p rest | .error p rest => ⟨[], p, rest⟩
      | .ready command p rest =>
        let fed := feedLoop rounds p rest
        { fed with commands := command :: fed.commands }

def feed (p : Parser) (data : Bytes) : Fed := feedLoop alloc (data.length + 1) p data

/-- Buffer after buffer; after an error the connection is closed and nothing more is read. -/
def feedAll (p : Parser) : List Bytes → Fed
  | [] => ⟨[], p, []⟩
  | chunk :: chunks =>
    let fed := p.feed alloc chunk
    if fed.parser.state = .failed then fed
    else
      let later := feedAll fed.parser chunks
      { later with commands := fed.commands ++ later.commands }

end Parser

end Protocol

end PolyCache
