import Tunnel.Wire

/-!
# SocketSink and SocketSource

`tunnel/socket_sink.h` and `tunnel/socket_source.h`. The connection between the two is a reliable stream of bytes. What
the network does is a parameter: which attempt to connect succeeds and which write does (`Peer`), and what arrives at
the source before the connection ends, if there is one at all. An `async_read` delivers the bytes asked for or fails, so
the comparisons of `n` with the size asked for never find a difference.
-/

namespace Tunnel

open Lib

/-- The user's `Serialize` and `Deserialize` of the element type, on each kind of host. -/
structure UserCodec (V : Type) where
  serialize : Endian → V → Bytes → Except WireFault Bytes
  deserialize : Endian → WireReader V

/-- Why a coroutine of a socket node does not return: an exception, a fault of a codec, or it waits for a connection
nobody makes. -/
inductive SocketStop where
  | threw (what : String)
  | fault (f : WireFault)
  | waits
  deriving DecidableEq, Repr

/-- A codec that throws raises an exception; its other faults end the process or read what is not there. -/
def SocketStop.ofWire : WireFault → SocketStop
  | .runtimeError what => .threw what
  | f => .fault f

/-- What the network does to a `SocketSink`: whether an attempt to connect succeeds, and whether a write does. -/
structure Peer where
  accepts : Nat → Bool
  takes : Nat → Bool

/-! ## The sink -/

/-- A `SocketSink`: `connected_`, what it has written to the connection if there was one, and how often it has tried to
connect and to write. -/
structure SocketSink where
  connected : Bool := false
  wire : Option Bytes := none
  attempts : Nat := 0
  writes : Nat := 0

namespace SocketSink

variable {V : Type}

/-- The loop of `consume` around `SocketConnectAwaiter`, with this many attempts left. -/
def connect (peer : Peer) : Nat → SocketSink → Except SocketStop SocketSink
  | 0, _ => .error (.threw "socket sink connect error")
  | left + 1, s =>
    if peer.accepts s.attempts then .ok { s with connected := true, wire := some [], attempts := s.attempts + 1 }
    else connect peer left { s with attempts := s.attempts + 1 }

/-- `SocketWriteAwaiter`. -/
def send (peer : Peer) (bytes : Bytes) (s : SocketSink) : Except SocketStop SocketSink :=
  if peer.takes s.writes then .ok { s with wire := s.wire.map (· ++ bytes), writes := s.writes + 1 }
  else .error (.threw "socket write error")

/-- The package, its length in front. The length is a `uint32_t`. -/
def writePackage (host : Endian) (peer : Peer) (pkg : Package) (s : SocketSink) : Except SocketStop SocketSink := do
  let buf ← (serializePackage host pkg []).mapError .ofWire
  let lengthBuf ← (serializeUInt32 host (UInt32.ofNat buf.length) []).mapError .ofWire
  let s ← s.send peer lengthBuf
  s.send peer buf

/-- `Write`. -/
def write (codec : UserCodec V) (host : Endian) (peer : Peer) (value : V) (s : SocketSink) :
    Except SocketStop SocketSink := do
  let binData ← (codec.serialize host value []).mapError .ofWire
  s.writePackage host peer { eof := false, binData := binData }

/-- `WriteEof`. -/
def writeEof (host : Endian) (peer : Peer) (s : SocketSink) : Except SocketStop SocketSink :=
  s.writePackage host peer { eof := true, binData := [] }

/-- `consume`: it connects at its first value. -/
def consume (codec : UserCodec V) (host : Endian) (peer : Peer) (s : SocketSink) (value : V) :
    Except SocketStop SocketSink := do
  let s ← if s.connected = false then s.connect peer 5 else .ok s
  s.write codec host peer value

/-- `after_work`. -/
def afterWork (host : Endian) (peer : Peer) (s : SocketSink) : Except SocketStop SocketSink := do
  if s.connected then
    let s ← s.writeEof host peer
    .ok { s with connected := false }
  else .ok s

/-- `work` and `after_work` of a new sink, on these values. -/
def run (codec : UserCodec V) (host : Endian) (peer : Peer) (values : List V) : Except SocketStop SocketSink := do
  let s ← values.foldlM (consume codec host peer) {}
  s.afterWork host peer

end SocketSink

/-! ## The source -/

/-- A `SocketSource`: `connected_`, and what is left to read of the connection. -/
structure SocketSource where
  connected : Bool := false
  unread : Bytes := []

namespace SocketSource

variable {V : Type}

/-- `SocketReadAwaiter`: these many bytes, or an exception when the connection ends before them. -/
def receive (n : Nat) (s : SocketSource) : Except SocketStop (Bytes × SocketSource) :=
  if n ≤ s.unread.length then .ok (s.unread.take n, { s with unread := s.unread.drop n })
    else .error (.threw "End of file")

/-- `Read`. -/
def read (codec : UserCodec V) (host : Endian) (s : SocketSource) : Except SocketStop (Option V × SocketSource) := do
  let (buf, s) ← s.receive integralSize
  let length ← (deserializeView (deserializeUInt32 host) buf).mapError .ofWire
  let (databuf, s) ← s.receive length.toNat
  let pkg ← (deserializeView (deserializePackage host) databuf).mapError .ofWire
  if pkg.eof then .ok (none, s) else
  let v ← (deserializeView (codec.deserialize host) pkg.binData).mapError .ofWire
  .ok (some v, s)

/-- `generate`: it accepts a connection at its first call. `peer` is what arrives on it, if somebody connects. -/
def generate (codec : UserCodec V) (host : Endian) (peer : Option Bytes) (s : SocketSource) :
    Except SocketStop (Option V × SocketSource) := do
  let s ← if s.connected = false then
      match peer with
      | some bytes => .ok { connected := true, unread := bytes }
      | none => .error .waits
    else .ok s
  s.read codec host

/-- The results of successive calls of `generate`, at most this many: there is none after EOF or an exception. -/
def calls (codec : UserCodec V) (host : Endian) (peer : Option Bytes) :
    Nat → SocketSource → List (Except SocketStop (Option V))
  | 0, _ => []
  | n + 1, s =>
    match s.generate codec host peer with
    | .ok (some v, s) => .ok (some v) :: calls codec host peer n s
    | .ok (none, _) => [.ok none]
    | .error e => [.error e]

end SocketSource

/-! ## The format of a connection -/

/-- A body, its length in front. -/
def frame (body : Bytes) : Bytes := encodeIntegral (BitVec.ofNat 32 body.length) ++ body

/-- The frame of a value whose encoding is `binData`. -/
def valueFrame (binData : Bytes) : Bytes := frame (encodePackage { eof := false, binData := binData })

/-- The frame of the EOF. -/
def eofFrame : Bytes := frame (encodePackage { eof := true, binData := [] })

/-- What a connection carries from a sink whose values have these encodings. -/
def transcript (bodies : List Bytes) : Bytes := bodies.flatMap valueFrame ++ eofFrame

end Tunnel
