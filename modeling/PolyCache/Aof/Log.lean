import PolyCache.Aof.Base64
import PolyCache.Library.Lines

/-!
# The append-only file

`AOFLogger` is `src/aof.cpp`: the lines that `log_set` and `log_del` append to the file, and the
calls of the store that `replay` makes from a file. The JSON library is the parameter `JsonLib`.
A file is its bytes; every write to it succeeds.
-/

namespace PolyCache

open Lines

namespace Aof

/-- A call of `set` or `del`, as it is logged and replayed. -/
inductive Record where
  | set (key value : Bytes) (ttl : Int)
  | del (key : Bytes)
  deriving DecidableEq, Repr

/-- The ttl is an `int`, as `log_set` takes it. -/
def Record.InRange : Record → Prop
  | .set _ _ ttl => -2 ^ 31 ≤ ttl ∧ ttl < 2 ^ 31
  | .del _ => True

/-! ## JSON documents -/

/-- A member of an object. `number` carries the `int` it converts to. -/
inductive JsonValue where
  | string (text : Bytes)
  | number (n : Int)
  | other
  deriving DecidableEq, Repr

/-- The members of an object, in the order of their names. -/
abbrev JsonObject := List (Bytes × JsonValue)

inductive Json where
  | object (members : JsonObject)
  | other
  deriving DecidableEq, Repr

/-- `dump` of an object, and `parse` of a text, which is `none` where it throws. -/
structure JsonLib where
  dump : JsonObject → Bytes
  parse : Bytes → Option Json

def kCmd : Bytes := ascii "cmd"
def kKeyB64 : Bytes := ascii "key_b64"
def kKey : Bytes := ascii "key"
def kValueB64 : Bytes := ascii "value_b64"
def kValue : Bytes := ascii "value"
def kTtl : Bytes := ascii "ttl"
def kSet : Bytes := ascii "SET"
def kDel : Bytes := ascii "DEL"

/-- The object that `log_set` or `log_del` builds. -/
def Record.json : Record → JsonObject
  | .set key value ttl =>
    [(kCmd, .string kSet), (kKeyB64, .string (Base64.encode key)), (kTtl, .number ttl),
      (kValueB64, .string (Base64.encode value))]
  | .del key => [(kCmd, .string kDel), (kKeyB64, .string (Base64.encode key))]

variable (lib : JsonLib)

/-! ## Writing -/

def appendLine (file line : Bytes) : Bytes := file ++ line ++ [LF]

def logSet (file key value : Bytes) (ttl : Int) : Bytes :=
  appendLine file (lib.dump (Record.set key value ttl).json)

def logDel (file key : Bytes) : Bytes := appendLine file (lib.dump (Record.del key).json)

def Record.log (file : Bytes) : Record → Bytes
  | .set key value ttl => logSet lib file key value ttl
  | .del key => logDel lib file key

/-- The file after the records have been logged, one after the other. -/
def append (file : Bytes) (records : List Record) : Bytes :=
  records.foldl (fun file r => r.log lib file) file

/-! ## Reading -/

/-- `none` where `decode_field` answers `false` and where it throws: the line is skipped either
way. -/
def decodeField (j : JsonObject) (encoded legacy : Bytes) : Option Bytes :=
  match j.lookup encoded with
  | some (.string text) => Base64.decode text
  | some _ => none
  | none =>
    match j.lookup legacy with
    | some (.string text) => some text
    | _ => none

/-- `j.value(name, "")`, which throws on anything but a string. -/
def stringValue (j : JsonObject) (name : Bytes) : Option Bytes :=
  match j.lookup name with
  | none => some []
  | some (.string text) => some text
  | some _ => none

/-- `j.value(name, 0)`, which throws on anything but a number. -/
def intValue (j : JsonObject) (name : Bytes) : Option Int :=
  match j.lookup name with
  | none => some 0
  | some (.number n) => some n
  | some _ => none

/-- The call that `replay` makes for a parsed line, if any. -/
def replayObject (j : JsonObject) : Option Record := do
  let cmd ← stringValue j kCmd
  if cmd = kSet then
    let key ← decodeField j kKeyB64 kKey
    let value ← decodeField j kValueB64 kValue
    let ttl ← intValue j kTtl
    return .set key value ttl
  else if cmd = kDel then
    let key ← decodeField j kKeyB64 kKey
    return .del key
  else none

def replayLine (line : Bytes) : Option Record :=
  if line = [] then none
  else
    match lib.parse line with
    | some (.object j) => replayObject j
    | _ => none

/-- The calls that `replay` makes, in order. The file stays as it is. -/
def replay (file : Bytes) : List Record := (getlines LF file).filterMap (replayLine lib)

/-! ## What the log relies on -/

/-- `parse` inverts `dump` on the objects that are logged, `dump` does not break lines, and there is
no empty document. -/
structure JsonLib.Lawful (lib : JsonLib) : Prop where
  parse_dump : ∀ r : Record, r.InRange → lib.parse (lib.dump r.json) = some (.object r.json)
  single_line : ∀ r : Record, r.InRange → LF ∉ lib.dump r.json
  parse_nil : lib.parse [] = none

variable {lib}

theorem log_eq (file : Bytes) (r : Record) : r.log lib file = file ++ lib.dump r.json ++ [LF] := by
  cases r <;> rfl

theorem append_eq (file : Bytes) (records : List Record) :
    append lib file records = file ++ append lib [] records := by
  induction records using List.reverseRecOn with
  | nil => simp [append]
  | append_singleton records r ih =>
    simp only [append, List.foldl_append, List.foldl_cons, List.foldl_nil, log_eq] at ih ⊢
    rw [ih]
    simp

theorem append_cons (r : Record) (records : List Record) :
    append lib [] (r :: records) = lib.dump r.json ++ LF :: append lib [] records := by
  rw [append, List.foldl_cons]
  change append lib (r.log lib []) records = _
  rw [append_eq, log_eq]
  simp

theorem append_append (file : Bytes) (records later : List Record) :
    append lib file (records ++ later) = append lib (append lib file records) later :=
  List.foldl_append

theorem decodeField_encode {j : JsonObject} {encoded legacy text : Bytes}
    (h : j.lookup encoded = some (.string (Base64.encode text))) :
    decodeField j encoded legacy = some text := by
  simp [decodeField, h, Base64.decode_encode]

theorem replayObject_json (r : Record) : replayObject r.json = some r := by
  cases r with
  | set key value ttl =>
    have hcmd : stringValue (Record.set key value ttl).json kCmd = some kSet := rfl
    have hkey : decodeField (Record.set key value ttl).json kKeyB64 kKey = some key :=
      decodeField_encode rfl
    have hvalue : decodeField (Record.set key value ttl).json kValueB64 kValue = some value :=
      decodeField_encode rfl
    have httl : intValue (Record.set key value ttl).json kTtl = some ttl := rfl
    simp [replayObject, hcmd, hkey, hvalue, httl]
  | del key =>
    have hcmd : stringValue (Record.del key).json kCmd = some kDel := rfl
    have hkey : decodeField (Record.del key).json kKeyB64 kKey = some key := decodeField_encode rfl
    have hne : kDel ≠ kSet := by decide
    simp [replayObject, hcmd, hkey, hne]

theorem dump_ne_nil (h : lib.Lawful) {r : Record} (hr : r.InRange) : lib.dump r.json ≠ [] := by
  intro hnil
  have hparse := h.parse_dump r hr
  rw [hnil, h.parse_nil] at hparse
  cases hparse

theorem replayLine_dump (h : lib.Lawful) {r : Record} (hr : r.InRange) :
    replayLine lib (lib.dump r.json) = some r := by
  rw [replayLine, if_neg (dump_ne_nil h hr), h.parse_dump r hr]
  exact replayObject_json r

/-- A file that starts with a whole line of the log. -/
theorem replay_cons (h : lib.Lawful) {r : Record} (hr : r.InRange) (file : Bytes) :
    replay lib (lib.dump r.json ++ LF :: file) = r :: replay lib file := by
  rw [replay, getlines_line (h.single_line r hr), List.filterMap_cons, replayLine_dump h hr, replay]

/-- Whole lines of the log replay as the calls that were logged, whatever follows. -/
theorem replay_append (h : lib.Lawful) {records : List Record} (hr : ∀ r ∈ records, r.InRange)
    (file : Bytes) : replay lib (append lib [] records ++ file) = records ++ replay lib file := by
  induction records with
  | nil => rfl
  | cons r records ih =>
    rw [List.forall_mem_cons] at hr
    rw [append_cons, List.append_assoc, List.cons_append, replay_cons h hr.1, ih hr.2,
      List.cons_append]

theorem replay_log (h : lib.Lawful) {records : List Record} (hr : ∀ r ∈ records, r.InRange) :
    replay lib (append lib [] records) = records := by
  simpa [replay, getlines] using replay_append h hr []

end Aof

end PolyCache
