import Mathlib.Data.List.OfFn
import Tunnel.Lib.Attempt
import Tunnel.SwitcherWire

/-!
# The client of the switcher

`switcher/switcher_client.h`, byte by byte, on the awaiters of `awaiter/asio/socket.h`. An object that is created
without an initializer, such as `request_package rp;`, has empty strings; its other members, and the elements of an
array of `char`, are what the memory held before. That is an argument of each call (`Memory`).

What the network and the server do is given too: which attempt to connect succeeds, which write fails and after how many
bytes, and what the server sends (`Link`, `unread`). A call that throws leaves the client as it is, and the next call
goes on from there. After a fault of a decoder there is no next call: the read outside the view, or the `assert` behind
it, ends the process.
-/

namespace Tunnel

open Lib

/-- What the network and the server do: whether an attempt to connect succeeds, after how many bytes a write fails if it
does, and whether the server closes the connection behind what it sends. -/
structure Link where
  accepts : Nat → Bool
  breaks : Nat → Option Nat
  closes : Bool

/-- A `SwitcherClient`: `connected_`, how often it has tried to connect and to write, and what is left to read on its
socket. -/
structure SwitcherClient where
  connected : Bool := false
  attempts : Nat := 0
  writes : Nat := 0
  unread : Bytes

namespace SwitcherClient

/-- What the memory held before a call created its objects there: the members of its `request_package` and of its
`data_package` that no constructor sets, and the array `buf` of each `read_package` of the call. -/
structure Memory where
  type : Int32
  timeoutMs : Int32
  eof : Bool
  buf : Nat → Fin integralSize → UInt8

/-- `request_package rp;`. -/
def Memory.requestPackage (mem : Memory) :
    RequestPackage := { topic := [], type := mem.type, timeoutMs := mem.timeoutMs }

/-- `data_package dp;`. -/
def Memory.dataPackage (mem : Memory) : DataPackage := { data := [], metaInfo := [], eof := mem.eof }

/-- A coroutine of the client. The log is what it writes to the socket. -/
abbrev Task := Attempt SocketStop (SwitcherClient × Bytes)

/-- What `Serialize` or `Deserialize` does. -/
def ofWire {α : Type} (r : Except WireFault α) : Task α := Attempt.lift (r.mapError .ofWire)

/-- `Connect`. -/
def connect (link : Link) : Task Unit := fun (c, log) =>
  if c.connected = false then
    if link.accepts c.attempts then (.ok (), { c with connected := true, attempts := c.attempts + 1 }, log)
    else (.error (.threw "connect to switcher failed"), { c with attempts := c.attempts + 1 }, log)
  else (.ok (), c, log)

/-- `SocketWriteAwaiter`. -/
def send (link : Link) (bytes : Bytes) : Task Unit := fun (c, log) =>
  if c.connected = false then (.error (.threw "Bad file descriptor"), c, log) else
  match link.breaks c.writes with
  | none => (.ok (), { c with writes := c.writes + 1 }, log ++ bytes)
  | some n => (.error (.threw "socket write error"), { c with writes := c.writes + 1 }, log ++ bytes.take n)

/-- `SocketReadAwaiter` into a buffer that holds `buf`: the bytes transferred take the place of its first ones. -/
def receive (link : Link) (buf : Bytes) : Task Bytes := fun (c, log) =>
  if c.connected = false then (.error (.threw "Bad file descriptor"), c, log) else
  let done := Switcher.asyncRead buf.length c.unread
  if done.eof then (.error (if link.closes then .threw "End of file" else .waits), { c with unread := done.rest }, log)
  else (.ok (done.transferred ++ buf.drop done.transferred.length), { c with unread := done.rest }, log)

/-- `read_package`, with what its array `buf` held. The buffer of the body is filled with the character that `'/0'` is.
-/
def readPackage (host : Endian) (link : Link) (T : WireType) (held : Fin integralSize → UInt8) : Task T.Carrier := do
  let buf ← receive link (List.ofFn held)
  let length ← ofWire (deserializeView (deserializeUInt32 host) buf)
  let buffer ← receive link (List.replicate length.toNat (ascii '0'))
  ofWire (deserializeView (T.deserialize host) buffer)

/-- `write_package`. -/
def writePackage (host : Endian) (link : Link) (T : WireType) (pkg : T.Carrier) : Task Unit := do
  let buf ← ofWire (T.serialize host pkg [])
  if buf.length ≤ uint32Max then
    let lengthBuf ← ofWire (serializeUInt32 host (UInt32.ofNat buf.length) [])
    send link lengthBuf
    send link buf
  else Attempt.throw (.fault .assertFailed)

section

variable {V : Type}

/-- `Push`. -/
def push (codec : UserCodec V) (host : Endian) (link : Link) (mem : Memory) (topic : Bytes) (value : Option V) :
    Task Unit := do
  let rp := mem.requestPackage
  let rp := { rp with topic := topic }
  let rp := { rp with type := Switcher.requestTypePush }
  writePackage host link .request rp
  let dp := mem.dataPackage
  let dp ← match value with
    | some value => do
      let data ← ofWire (codec.serialize host value dp.data)
      pure { dp with data := data, eof := false }
    | none => pure { dp with eof := true }
  writePackage host link .data dp
  let _ ← readPackage host link .response (mem.buf 0)
  pure ()

/-- `Pop`. -/
def pop (codec : UserCodec V) (host : Endian) (link : Link) (mem : Memory) (topic : Bytes) : Task (Option V) := do
  let rp := mem.requestPackage
  let rp := { rp with topic := topic }
  let rp := { rp with type := Switcher.requestTypePop }
  writePackage host link .request rp
  let dp : DataPackage ← readPackage host link .data (mem.buf 0)
  let _ ← readPackage host link .response (mem.buf 1)
  if dp.eof = true then pure none else
  let v ← ofWire (deserializeView (codec.deserialize host) dp.data)
  pure (some v)

/-- `CloseTopic`. -/
def closeTopic (host : Endian) (link : Link) (mem : Memory) (topic : Bytes) : Task Int32 := do
  let rp := mem.requestPackage
  let rp := { rp with topic := topic }
  let rp := { rp with type := Switcher.requestTypeCloseTopic }
  writePackage host link .request rp
  let dp : ResponsePackage ← readPackage host link .response (mem.buf 0)
  pure dp.responseCode

/-- `CheckTopicExist`. -/
def checkTopicExist (host : Endian) (link : Link) (mem : Memory) (topic : Bytes) : Task Bool := do
  let rp := mem.requestPackage
  let rp := { rp with topic := topic }
  let rp := { rp with type := Switcher.requestTypeCheckTopicExist }
  writePackage host link .request rp
  let dp : ResponsePackage ← readPackage host link .response (mem.buf 0)
  pure (dp.responseCode = Switcher.responseOk)

end

/-! ## Runs -/

section

variable {ι : Type} {T : ι → Type}

/-- A call, with the type that the member template is used at. -/
inductive Call (T : ι → Type) where
  | push (i : ι) (topic : Bytes) (value : Option (T i))
  | pop (i : ι) (topic : Bytes)
  | closeTopic (topic : Bytes)
  | checkTopicExist (topic : Bytes)

/-- What a call returns. -/
inductive Return (T : ι → Type) where
  | pushed
  | popped (i : ι) (value : Option (T i))
  | code (responseCode : Int32)
  | topicExists (answer : Bool)

def perform (codec : ∀ i, UserCodec (T i)) (host : Endian) (link : Link) (mem : Memory) : Call T → Task (Return T)
  | .push i topic value => do
    push (codec i) host link mem topic value
    pure .pushed
  | .pop i topic => do
    let v ← pop (codec i) host link mem topic
    pure (.popped i v)
  | .closeTopic topic => do
    let responseCode ← closeTopic host link mem topic
    pure (.code responseCode)
  | .checkTopicExist topic => do
    let answer ← checkTopicExist host link mem topic
    pure (.topicExists answer)

/-- What became of a call, and what it has written to the socket. -/
structure Outcome (T : ι → Type) where
  result : Except SocketStop (Return T)
  written : Bytes

/-- No call comes after it. -/
def Outcome.isLast (o : Outcome T) : Bool :=
  match o.result with
  | .ok _ => false
  | .error (.threw _) => false
  | .error _ => true

/-- The calls one after another; `mem` is what the memory holds before each of them. -/
def run (codec : ∀ i, UserCodec (T i)) (host : Endian) (link : Link) :
    (Nat → Memory) → List (Call T) → SwitcherClient → List (Outcome T)
  | _, [], _ => []
  | mem, call :: calls, c =>
    let done := perform codec host link (mem 0) call (c, [])
    let o : Outcome T := { result := done.1, written := done.2.2 }
    o :: if o.isLast then [] else run codec host link (fun k => mem (k + 1)) calls done.2.1

/-- What the calls have written to the socket. -/
def bytes (outcomes : List (Outcome T)) : Bytes := outcomes.flatMap (·.written)

end

end SwitcherClient

end Tunnel
