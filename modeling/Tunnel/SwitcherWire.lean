import Tunnel.Socket
import Tunnel.Switcher

/-!
# The switcher on the wire

`read_package(s, eof)` as the server has it (`switcher/switcher.h`) and as the client has it
(`switcher/switcher_client.h`, on the awaiters of `awaiter/asio/socket.h`), on a connection that the peer closes behind
the bytes it has sent, and `handle` from the bytes of a request on, with the log line that names the type of the request
and the address of the client.
-/

namespace Tunnel

open Lib

namespace Switcher

/-! ## Reading packages -/

/-- What an `asio::async_read` completes with on a connection that is closed behind the bytes left to read: whether the
error code is `asio::error::eof`, the bytes transferred, and what is left behind them. -/
structure Completion where
  eof : Bool
  transferred : Bytes
  rest : Bytes

/-- `asio::async_read` into a buffer of this size: it fills the buffer, or comes to the end of the connection. -/
def asyncRead (n : Nat) (unread : Bytes) : Completion :=
  if n ≤ unread.length then { eof := false, transferred := unread.take n, rest := unread.drop n }
  else { eof := true, transferred := unread, rest := [] }

/-- `co_await asio::async_read(.., asio::use_awaitable)`: an error code is thrown. -/
def awaitRead (n : Nat) (unread : Bytes) : Except SocketStop (Bytes × Bytes) :=
  let done := asyncRead n unread
  if done.eof then .error (.threw "End of file") else .ok (done.transferred, done.rest)

/-- The body of a package: as many bytes as the length in front of it says. -/
def readBody (host : Endian) (T : WireType) (read : Nat → Bytes → Except SocketStop (Bytes × Bytes))
    (buf unread : Bytes) :
    Except SocketStop (Option T.Carrier × Bytes) := do
  let length ← (deserializeView (deserializeUInt32 host) buf).mapError .ofWire
  let (buffer, unread) ← read length.toNat unread
  let v ← (deserializeView (T.deserialize host) buffer).mapError .ofWire
  .ok (some v, unread)

/-- `read_package(s, eof)` of the server, from the bytes left to read. There is no package when it sets `eof`. -/
def readPackage (host : Endian) (T : WireType) (unread : Bytes) : Except SocketStop (Option T.Carrier × Bytes) :=
  let done := asyncRead integralSize unread
  if done.eof then .ok (none, done.rest) else readBody host T awaitRead done.transferred done.rest

/-- `SocketReadAwaiter`: with `throw_eof` the end of the connection is thrown, else it is seen from the number of bytes
transferred. -/
def socketReadAwaiter (throwEof : Bool) (n : Nat) (unread : Bytes) : Except SocketStop (Bytes × Bytes) :=
  let done := asyncRead n unread
  if done.eof && throwEof then .error (.threw "End of file") else .ok (done.transferred, done.rest)

/-- `async_simple_package::read_package(s, eof)`. -/
def Client.readPackage (host : Endian) (T : WireType) (unread : Bytes) :
    Except SocketStop (Option T.Carrier × Bytes) := do
  let (buf, unread) ← socketReadAwaiter false integralSize unread
  if buf.length ≠ integralSize then .ok (none, unread) else readBody host T (socketReadAwaiter true) buf unread

/-- The results of successive calls of a `read_package(s, eof)`, at most this many: there is none after it set `eof` or
threw. -/
def packages {α : Type} (read : Bytes → Except SocketStop (Option α × Bytes)) :
    Nat → Bytes → List (Except SocketStop (Option α))
  | 0, _ => []
  | n + 1, unread =>
    match read unread with
    | .ok (some v, unread) => .ok (some v) :: packages read n unread
    | .ok (none, _) => [.ok none]
    | .error e => [.error e]

/-! ## Handling a request -/

/-- `request_type_str`. -/
def requestTypeStr : List String := ["request_push", "request_pop", "request_check_topic_exist", "request_close_topic"]

/-- `request_type_str[type]`, if there is such an element. -/
def typeStr (type : Int32) : Option String := if 0 ≤ type.toInt then requestTypeStr[type.toInt.toNat]? else none

/-- What becomes of `handle`. -/
inductive Verdict where
  /-- the read of the request threw -/
  | failed (e : SocketStop)
  /-- the client has closed the connection -/
  | closed
  /-- `request_type_str` was read where it has no element -/
  | outOfBounds
  /-- `get_remote_ipport` threw, and the socket is destroyed -/
  | disconnected (what : String) (s : State)
  /-- a handler has the socket -/
  | handler (s : State)
  /-- an exception, and the socket is destroyed -/
  | rejected (what : String) (s : State)

/-- `handle` with the request it has read, behind the log line. -/
def dispatch (s : State) (c : Conn) (pkg : RequestPackage) : Verdict :=
  let s := { s with handled := s.handled ++ [pkg] }
  if pkg.type = requestTypePush then .handler (s.handlePushRequest c pkg.topic)
  else if pkg.type = requestTypePop then .handler (s.handlePopRequest c pkg.topic)
  else if pkg.type = requestTypeCloseTopic then .handler (s.handleCloseTopicRequest c pkg.topic)
  else if pkg.type = requestTypeCheckTopicExist then .handler (s.handleCheckTopicExist c pkg.topic)
  else .rejected "invalid request type for switcher now." (s.destroy [c])

/-- `handle` with the request it has read, from the log line on; `logs` says that `SPDLOG_INFO` is compiled in, as it is
by default, and `address` is what `get_remote_ipport` makes of the socket: it throws where the peer has reset the
connection. C++ does not say which of the two arguments of the log line comes first; here it is the type. -/
def handleRequest (logs : Bool) (address : Except String Bytes) (s : State) (c : Conn) (pkg : RequestPackage) :
    Verdict :=
  if logs && (typeStr pkg.type).isNone then .outOfBounds else
  match logs, address with
  | true, .error what => .disconnected what (s.destroy [c])
  | _, _ => dispatch s c pkg

/-- `handle` on a connection with these bytes left to read. -/
def handleBytes (logs : Bool) (address : Except String Bytes) (host : Endian) (s : State) (c : Conn) (unread : Bytes) :
    Verdict :=
  match readPackage host .request unread with
  | .ok (some pkg, _) => handleRequest logs address s c pkg
  | .ok (none, _) => .closed
  | .error e => .failed e

end Switcher

end Tunnel
