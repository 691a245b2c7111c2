import Tunnel.Run
import Tunnel.Socket

/-!
# Pipelines that sockets connect

Two pipelines that run on two hosts. The sink in a place of `sinks_` of the left one is a `SocketSink`, and connects to
the `SocketSource` in the same place of `sources_` of the right one. A step is one of a pipeline as in `Run`, or one of
a socket node at its socket: `consume` and `after_work` write, `generate` reads.

A `SocketSource` waits until a `SocketSink` has connected and a whole frame has come. A `SocketSink` waits until the
connection has taken the whole frame: it holds only so many bytes that nobody has read (`Deployment.hasRoom`). A write
may fail in the middle of a frame: in `consume` that is an exception as of any callback, in `after_work` the exception
leaves `work_with_exception`. That a read fails is an exception of `generate`, and may happen at any time.
-/

namespace Tunnel

variable {V : Type}

/-- A connection: what the sink has done, how many bytes the source has read, and whether `WriteEof` threw. -/
structure Connection where
  sink : SocketSink := {}
  read : Nat := 0
  failed : Bool := false

/-- The two pipelines, the codec of the values, the byte orders of the hosts, and how many bytes the connection in each
place holds, in the buffers on the way from the sink to the source. -/
structure Deployment (V : Type) where
  left : Pipeline V
  right : Pipeline V
  codec : UserCodec V
  writer : Endian
  reader : Endian
  window : Nat → Nat

/-- The two pipelines as they run, and the connection of each place. -/
structure Linked (V : Type) where
  left : State V
  right : State V
  connections : Nat → Connection

/-- The left pipeline has gone on, and the sink in place `i` has written something. -/
def Linked.atPlace (c : Linked V) (i : Nat) (s : State V) (sink : SocketSink) (failed : Bool) : Linked V :=
  { c with
    left := s
    connections := Function.update c.connections i { c.connections i with sink := sink, failed := failed } }

/-- The steps. -/
inductive LinkedEvent (V : Type) where
  /-- a step on the left, not at a socket -/
  | left (e : Event V)
  /-- a sink writes a value or the EOF -/
  | write (u : Id) (peer : Peer)
  /-- `consume` of a sink throws: it could not connect, or so much of the frame was written -/
  | breaks (u : Id) (cut : Option Nat) (standard : Bool)
  /-- `WriteEof` of a sink throws, when so much of the frame was written -/
  | eofBreaks (u : Id) (cut : Nat)
  /-- a step on the right, where no source reads -/
  | right (e : Event V)
  /-- `generate` of a source returns -/
  | generate (u : Id)

namespace LinkedEvent

/-- What the left pipeline sees of it. -/
def onLeft : LinkedEvent V → Option (Event V)
  | .left e => some e
  | .write u _ => some (.run u)
  | .breaks u _ standard => some (.throw u standard)
  | .eofBreaks u _ => some (.run u)
  | _ => none

/-- What the right pipeline sees of it. -/
def onRight : LinkedEvent V → Option (Event V)
  | .right e => some e
  | .generate u => some (.run u)
  | _ => none

/-- No exception comes with it. -/
def quiet : LinkedEvent V → Bool
  | .left (.run _) => true
  | .write _ _ => true
  | .right (.run _) => true
  | .generate _ => true
  | _ => false

end LinkedEvent

/-- `generate` of a source returned this. -/
def Proc.returns (x : Proc V) (v : Option V) : Proc V :=
  { x with generated := x.generated + 1, ctl := .emit [(0, v)] (if v.isSome then .generate else .ret) }

namespace Deployment

variable (d : Deployment V)

/-- `Run` of both. -/
def start (pre pre' : UserChannel → List (Option V)) (tokens tokens' : Nat) : Linked V where
  left := d.left.start pre tokens
  right := d.right.start pre' tokens'
  connections _ := {}

/-! ## The sinks -/

/-- What a sink is about to write: a value, or the EOF. -/
def writes (c : Linked V) (u : Id) : Option (Option V) :=
  if u ∈ d.left.sinks then
    match (c.left.procs u).map Proc.ctl with
    | some (.handle _ v) => some (some v)
    | some .afterWork => some none
    | _ => none
  else none

/-- The sink writes it. -/
def written (peer : Peer) : Option V → SocketSink → Except SocketStop SocketSink
  | some v, s => s.consume d.codec d.writer peer v
  | none, s => s.afterWork d.writer peer

/-- The sink has written only so many bytes of what it wanted to write; without a number it could not connect. -/
def cutOff (v : Option V) (s : SocketSink) : Option Nat → Option SocketSink
  | none => if s.connected = false ∧ v.isSome = true then some s else none
  | some k =>
    match d.written ⟨fun _ => true, fun _ => true⟩ v s with
    | .ok s' =>
      match s'.wire with
      | some bytes =>
        if (s.wire.getD []).length + k < bytes.length then
          some { s with connected := true, wire := some (bytes.take ((s.wire.getD []).length + k)) }
        else none
      | none => none
    | .error _ => none

/-- The step is one of a sink that is about to write. -/
def atSink (c : Linked V) : Event V → Bool
  | .run u => (d.writes c u).isSome
  | .throw u _ => (d.writes c u).isSome
  | _ => false

/-! ## The sources -/

/-- `generate` of a source, if the frame is there that it waits for. -/
def readFrom (k : Connection) : Option (Option V × Connection) :=
  match k.sink.wire with
  | none => none
  | some bytes =>
    match SocketSource.read d.codec d.reader { connected := true, unread := bytes.drop k.read } with
    | .ok (v, s) => some (v, { k with read := bytes.length - s.unread.length })
    | .error _ => none

/-- The step is the return of `generate` of a source. -/
def atSource (c : Linked V) : Event V → Bool
  | .run u =>
    if u ∈ d.right.sources then
      match (c.right.procs u).map Proc.ctl with
      | some .generate => true
      | _ => false
    else false
  | _ => false

/-- The source in place `i` is in `generate`. -/
def reads (c : Linked V) (i : Nat) : Bool :=
  match d.right.sources[i]? with
  | some u => d.atSource c (.run u)
  | none => false

/-- The connection in place `i` takes what the sink has written, and the source has not read. A source in `generate`
takes the bytes of the frame it waits for out of it as they come. -/
def hasRoom (c : Linked V) (i : Nat) (sink : SocketSink) : Bool :=
  match sink.wire with
  | none => true
  | some bytes =>
    let unread := bytes.drop (c.connections i).read
    if d.reads c i then
      match SocketSource.read d.codec d.reader { connected := true, unread := unread } with
      | .ok (_, s) => s.unread.length ≤ d.window i
      | .error _ => unread.length ≤ d.window i
    else unread.length ≤ d.window i

/-! ## Steps -/

/-- The sink `u` has written something, and takes a step of its pipeline. -/
def sinkStep (c : Linked V) (u : Id) (e : Event V) (sink : SocketSink) (failed : Bool) : Option (Linked V) :=
  (c.left.step e).map (fun s => c.atPlace (d.left.sinks.idxOf u) s sink failed)

/-- The state a step leads to, if it can be taken. -/
def step (c : Linked V) : LinkedEvent V → Option (Linked V)
  | .left e => if d.atSink c e then none else (c.left.step e).map (fun s => { c with left := s })
  | .write u peer =>
    match d.writes c u with
    | some v =>
      match d.written peer v (c.connections (d.left.sinks.idxOf u)).sink with
      | .ok sink => if d.hasRoom c (d.left.sinks.idxOf u) sink then d.sinkStep c u (.run u) sink false else none
      | .error _ => none
    | none => none
  | .breaks u cut standard =>
    match d.writes c u with
    | some (some v) =>
      (d.cutOff (some v) (c.connections (d.left.sinks.idxOf u)).sink cut).bind
        (fun sink => d.sinkStep c u (.throw u standard) sink false)
    | _ => none
  | .eofBreaks u cut =>
    match d.writes c u with
    | some none =>
      (d.cutOff none (c.connections (d.left.sinks.idxOf u)).sink (some cut)).bind (fun sink =>
        d.sinkStep c u (.run u) sink true)
    | _ => none
  | .right e => if d.atSource c e then none else (c.right.step e).map (fun s => { c with right := s })
  | .generate u =>
    if d.atSource c (.run u) = true ∧ c.right.dead = false then
      let i := d.right.sources.idxOf u
      match c.right.procs u, d.readFrom (c.connections i) with
      | some x, some (v, k) =>
        some { c with right := c.right.setProc u (x.returns v), connections := Function.update c.connections i k }
      | _, _ => none
    else none

/-- A run along a list of steps. -/
def runAll (c : Linked V) : List (LinkedEvent V) → Option (Linked V)
  | [] => some c
  | e :: rest => (d.step c e).bind (fun c => runAll c rest)

end Deployment

end Tunnel
