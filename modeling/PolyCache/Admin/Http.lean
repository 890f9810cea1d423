import PolyCache.Server.Connection

/-!
# The admin server

`AdminServer` of `src/admin.cpp`, from the first readiness event of a connection to its end. The
kernel's answers come with each event, and where they end, `recv` would block and `send` takes the
rest. `storage_->metrics().dump()` at the time of the event is given, too.
-/

namespace PolyCache

open Protocol Server

namespace AdminServer

def kMaxRequest : Nat := 4096

/-- `sizeof(buf)` in `handle_connection` -/
def bufSize : Nat := 1024

/-- `string::find` -/
def find (needle : Bytes) : Bytes → Option Nat
  | [] => if needle = [] then some 0 else none
  | c :: text => if needle <+: c :: text then some 0 else (find needle text).map (· + 1)

def httpResponse (status : Nat) (statusText : String) (body : Bytes) : Bytes :=
  ascii "HTTP/1.1 " ++ Decimal.numeral status ++ ascii " " ++ ascii statusText ++ CRLF ++
    ascii "Content-Type: application/json\r\n" ++
    ascii "Content-Length: " ++ Decimal.numeral body.length ++ CRLF ++
    ascii "Connection: close\r\n" ++ CRLF ++ body

def handleRequest (dump request : Bytes) : Bytes :=
  let firstLine := request.take ((find CRLF request).getD request.length)
  match find (ascii " ") firstLine with
  | none => httpResponse 400 "Bad Request" (ascii "\x7b\x7d")
  | some p1 =>
    let afterMethod := firstLine.drop (p1 + 1)
    match find (ascii " ") afterMethod with
    | none => httpResponse 400 "Bad Request" (ascii "\x7b\x7d")
    | some p2 =>
      let method := firstLine.take p1
      let path := afterMethod.take p2
      if method ≠ ascii "GET" then httpResponse 405 "Method Not Allowed" (ascii "\x7b\x7d")
      else if path = ascii "/metrics" then httpResponse 200 "OK" dump
      else if path = ascii "/health" then
        httpResponse 200 "OK" (ascii "\x7b\"status\":\"ok\"\x7d")
      else httpResponse 404 "Not Found" (ascii "\x7b\x7d")

/-- The bytes that `send_all` gets out. It waits where `send` would block. -/
def sendAll : List SendResult → Bytes → Bytes
  | [], response => response
  | result :: sends, response =>
    if response = [] then []
    else
      match result with
      | .sent 0 | .failed => []
      | .sent n => response.take n ++ sendAll sends (response.drop n)
      | .again | .intr => sendAll sends response

/-- The blank line that the loop looks for. -/
def hasBlankLine (request : Bytes) : Bool :=
  (find (CRLF ++ CRLF) request).isSome || (find [LF, LF] request).isSome

/-- How the loop of `handle_connection` ends. -/
inductive ReadEnd where
  | request (request : Bytes)
  | tooLarge
  | close
  deriving DecidableEq, Repr

def readRequest : List RecvResult → Bytes → ReadEnd
  | [], request | .again :: _, request => .request request
  | .intr :: recvs, request => readRequest recvs request
  | .failed :: _, _ => .close
  | .data [] :: _, request => if request = [] then .close else .request request
  | .data (c :: bytes) :: recvs, request =>
    let request := request ++ c :: bytes
    if request.length > kMaxRequest then .tooLarge
    else if hasBlankLine request then .request request
    else readRequest recvs request

/-- A readiness event of a connection, with what the kernel answers in it. -/
structure Readiness where
  recvs : List RecvResult
  sends : List SendResult := []
  dump : Bytes

/-- A connection, with the bytes it has been sent and the requests that were answered. -/
structure Conn where
  isOpen : Bool := true
  sent : Bytes := []
  answered : List Bytes := []

/-- Every way through it ends in `close_conn`. -/
def handleConnection (e : Readiness) (c : Conn) : Conn :=
  match readRequest e.recvs [] with
  | .close => { c with isOpen := false }
  | .tooLarge =>
    { c with
      isOpen := false
      sent := c.sent ++ sendAll e.sends (httpResponse 400 "Bad Request" (ascii "\x7b\x7d")) }
  | .request request =>
    { isOpen := false
      sent := c.sent ++ sendAll e.sends (handleRequest e.dump request)
      answered := c.answered ++ [request] }

/-- The events of a connection, in order. A closed one has no more of them. -/
def serve (events : List Readiness) : Conn :=
  events.foldl (fun c e => if c.isOpen then handleConnection e c else c) {}

end AdminServer

end PolyCache
