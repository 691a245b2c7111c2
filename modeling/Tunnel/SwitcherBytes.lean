import Tunnel.Lib.Lane
import Tunnel.Switcher

/-!
# The switcher over sockets

The clients and the server of `Tunnel.Switcher` on connections that carry bytes. `write_package` hands over the length
and then the body of a package; the socket takes them in pieces of any size, and in between everybody else goes on.
`read_package` waits for the four bytes of a length and then for as many bytes as it says, and decodes them as the type
it was asked for, whatever they are. Clients and server need not have the same byte order.

The parties are those of the other model, without what is on the way between them (`State.offline`). A party goes on
when the last byte of its package is handed over or when the body it waits for is there: it then takes the step it takes
there. A read of the server may fail at any time, and so may a write in the middle of a package.
-/

namespace Tunnel

open Lib

namespace Switcher

/-! ## Packages -/

/-- `write_package`: the bytes that it writes, the length first. -/
def packageBytes (host : Endian) (T : WireType) (pkg : T.Carrier) : Except WireFault Bytes := do
  let buf ← T.serialize host pkg []
  if buf.length ≤ uint32Max then
    let lengthBuf ← serializeUInt32 host (UInt32.ofNat buf.length) []
    .ok (lengthBuf ++ buf)
  else .error .assertFailed

def Message.bytes (host : Endian) : Message → Except WireFault Bytes
  | .request pkg => packageBytes host .request pkg
  | .data pkg => packageBytes host .data pkg
  | .response pkg => packageBytes host .response pkg

/-- `Deserialize<T>(buffer)`. -/
def Kind.read (host : Endian) (buffer : Bytes) : Kind → Except WireFault Message
  | .request => (deserializeView (deserializeRequest host) buffer).map .request
  | .data => (deserializeView (deserializeData host) buffer).map .data
  | .response => (deserializeView (deserializeResponse host) buffer).map .response

/-- `read_package`, from one `co_await` to the next, if what it waits for is there: first the length, then the package.
-/
def readPart (host : Endian) (kind : Kind) (l : Lane UInt8) : Option (Lane UInt8 × Except WireFault (Option Message)) :=
  match l.length with
  | none =>
    if integralSize ≤ l.wire.length then
      match deserializeView (deserializeUInt32 host) (l.wire.take integralSize) with
      | .ok length => some (l.take integralSize (some length.toNat), .ok none)
      | .error e => some (l.take integralSize none, .error e)
    else none
  | some length =>
    if length ≤ l.wire.length then some (l.take length none, (kind.read host (l.wire.take length)).map some) else none

/-! ## What the parties write -/

namespace Frame

/-- The package that a coroutine writes, and the connection it writes it to. -/
def writes (address : Conn → Bytes) (c : Conn) : Frame → Option (Conn × Message)
  | .answer rpkg => some (c, .response rpkg)
  | .transfer pop _ (.writeData dpkg) => some (pop, .data dpkg)
  | .transfer pop topic .answerPush => some (c, State.transferResponse topic (address pop))
  | .transfer pop topic .answerPop => some (pop, State.transferResponse topic (address c))
  | _ => none

/-- The step that a coroutine takes with what it has read, or after what it has written. -/
def event (c : Conn) : Frame → Event
  | .handle => .request c
  | .answer _ => .answer c
  | .transfer _ _ _ => .transfer c

/-- The step in which its read or write fails. -/
def failure (c : Conn) : Frame → Event
  | .handle => .requestFails c
  | .answer _ => .answerFails c
  | .transfer _ _ _ => .transferFails c

end Frame

def Session.offline (x : Session) : Session := { x with inbox := [], outbox := [] }

/-- The parties, without what is on the way between them. -/
def State.offline (s : State) : State := { s with sessions := fun c => (s.sessions c).offline }

/-! ## The system -/

/-- The parties and the connections. `sending` is the call whose request a client is writing. -/
structure ByteState where
  parties : State
  sending : Conn → Option (Call × Int32)
  up : Conn → Lane UInt8
  down : Conn → Lane UInt8

namespace ByteState

def init : ByteState where
  parties := .init
  sending := fun _ => none
  up := fun _ => {}
  down := fun _ => {}

def setSending (b : ByteState) (c : Conn) (k : Option (Call × Int32)) :
    ByteState := { b with sending := Function.update b.sending c k }

def setUp (b : ByteState) (c : Conn) (l : Lane UInt8) : ByteState := { b with up := Function.update b.up c l }

def setDown (b : ByteState) (c : Conn) (l : Lane UInt8) : ByteState := { b with down := Function.update b.down c l }

/-- A package has come to the server. -/
def toServer (b : ByteState) (c : Conn) (m : Message) : ByteState :=
  { b with parties := b.parties.setSession c { b.parties.sessions c with inbox := [m] } }

/-- A package has come to a client. -/
def toClient (b : ByteState) (c : Conn) (m : Message) : ByteState :=
  { b with parties := b.parties.setSession c { b.parties.sessions c with outbox := [m] } }

/-- A party goes on. -/
def goOn (address : Conn → Bytes) (b : ByteState) (e : Event) : Option ByteState :=
  (b.parties.step address e).map (fun s => { b with parties := s.offline })

/-- An `assert` fails, or a decoder reads outside its view. -/
def failed (b : ByteState) : ByteState := { b with parties := b.parties.failed }

end ByteState

/-- The steps. A coroutine of the server is named by the connection it owns. -/
inductive ByteEvent where
  /-- a call begins to write its request -/
  | call (c : Conn) (k : Call) (timeoutMs : Int32)
  /-- `Push` begins to write its data -/
  | sendData (c : Conn)
  /-- the `Serialize` of the value of a push throws -/
  | serializeThrows (c : Conn)
  /-- the socket of a client takes so many bytes -/
  | clientWrite (c : Conn) (n : Nat)
  | clientRead (c : Conn)
  /-- a call ends with an exception, since the server closed the connection -/
  | raise (c : Conn)
  | accept (c : Conn)
  | acceptFails
  | serverRead (c : Conn)
  /-- a coroutine begins to write a package -/
  | serverSend (c : Conn)
  | serverWrite (c : Conn) (n : Nat)
  /-- a read or a write of a coroutine fails -/
  | fails (c : Conn)

namespace ByteState

/-- The state a step leads to, if it can be taken. `host` is the byte order of the server. -/
def step (address : Conn → Bytes) (clientHost : Conn → Endian) (host : Endian) (b : ByteState) :
    ByteEvent → Option ByteState
  | .call c k timeoutMs =>
    if (b.parties.sessions c).ctl = .idle ∧ b.sending c = none then
      match (Message.request (k.request timeoutMs)).bytes (clientHost c) with
      | .ok bytes => some ((b.setUp c ((b.up c).begin bytes)).setSending c (some (k, timeoutMs)))
      | .error _ => some b.failed
    else none
  | .sendData c =>
    match (b.parties.sessions c).ctl, (b.up c).rest with
    | .pushRequested _ value, none =>
      match (Message.data (dataPackage value)).bytes (clientHost c) with
      | .ok bytes => some (b.setUp c ((b.up c).begin bytes))
      | .error _ => some b.failed
    | _, _ => none
  | .serializeThrows c => if (b.up c).rest = none then b.goOn address (.serializeThrows c) else none
  | .clientWrite c n =>
    match (b.up c).write n with
    | none => none
    | some l =>
      if l.rest.isSome then some (b.setUp c l) else
      match b.sending c with
      | some (k, timeoutMs) => ((b.setUp c l).setSending c none).goOn address (.call c k timeoutMs)
      | none => (b.setUp c l).goOn address (.sendData c)
  | .clientRead c =>
    match (b.parties.sessions c).ctl.reads with
    | none => none
    | some kind =>
      match readPart (clientHost c) kind (b.down c) with
      | none => none
      | some (l, .error _) => some (b.setDown c l).failed
      | some (l, .ok none) => some (b.setDown c l)
      | some (l, .ok (some m)) => ((b.setDown c l).toClient c m).goOn address (.receive c)
  | .raise c =>
    if b.parties.Lost c then
      (((b.setSending c none).setUp c { b.up c with rest := none }).setDown c {}).goOn address (.raise c)
    else none
  | .accept c => b.goOn address (.accept c)
  | .acceptFails => b.goOn address .acceptFails
  | .serverRead c =>
    match b.parties.frames c with
    | none => none
    | some f =>
      match f.reads with
      | none => none
      | some kind =>
        match readPart host kind (b.up c) with
        | none => none
        | some (l, .error _) => some (b.setUp c l).failed
        | some (l, .ok none) => some (b.setUp c l)
        | some (l, .ok (some m)) => ((b.setUp c l).toServer c m).goOn address (f.event c)
  | .serverSend c =>
    match b.parties.frames c with
    | none => none
    | some f =>
      match f.writes address c with
      | none => none
      | some (d, m) =>
        if (b.down d).rest = none then
          match m.bytes host with
          | .ok bytes => some (b.setDown d ((b.down d).begin bytes))
          | .error _ => some b.failed
        else none
  | .serverWrite c n =>
    match b.parties.frames c with
    | none => none
    | some f =>
      match f.writes address c with
      | none => none
      | some (d, _) =>
        match (b.down d).write n with
        | none => none
        | some l => if l.rest.isSome then some (b.setDown d l) else (b.setDown d l).goOn address (f.event c)
  | .fails c =>
    match b.parties.frames c with
    | none => none
    | some f => b.goOn address (f.failure c)

/-- A run along a list of steps. -/
def runAll (address : Conn → Bytes) (clientHost : Conn → Endian) (host : Endian) (b : ByteState) :
    List ByteEvent → Option ByteState
  | [] => some b
  | e :: rest => (b.step address clientHost host e).bind (fun b => runAll address clientHost host b rest)

end ByteState

/-! ## Lengths -/

/-- A topic whose responses fit into a package, with addresses of at most `a` bytes in them. -/
def TopicFits (a : Nat) (topic : Topic) : Prop := topic.length + a + 16 ≤ uint32Max

/-- The packages of a call and of its answer have lengths that a `uint32_t` can hold, also if the server takes the data
of a push for a request. -/
def Call.Fits (a : Nat) : Call → Prop
  | .push topic value => TopicFits a topic ∧ (value.getD []).length + a + 13 ≤ uint32Max
  | .pop topic => TopicFits a topic
  | .closeTopic topic => TopicFits a topic
  | .checkTopicExist topic => TopicFits a topic

instance (a : Nat) (topic : Topic) : Decidable (TopicFits a topic) := inferInstanceAs (Decidable (_ ≤ _))

instance (a : Nat) : (k : Call) → Decidable (k.Fits a)
  | .push _ _ => inferInstanceAs (Decidable (_ ∧ _))
  | .pop _ => inferInstanceAs (Decidable (TopicFits _ _))
  | .closeTopic _ => inferInstanceAs (Decidable (TopicFits _ _))
  | .checkTopicExist _ => inferInstanceAs (Decidable (TopicFits _ _))

/-- The call of a step fits, if it is one, and no `Serialize` throws in it unless `throws` allows it. -/
def ByteEvent.Fits (a : Nat) (throws : Bool) : ByteEvent → Prop
  | .call _ k _ => k.Fits a
  | .serializeThrows _ => throws = true
  | _ => True

def Event.Fits (a : Nat) (throws : Bool) : Event → Prop
  | .call _ k _ => k.Fits a
  | .serializeThrows _ => throws = true
  | _ => True

/-- `b` is reached over sockets, with calls that fit. -/
def ByteState.Reachable (address : Conn → Bytes) (clientHost : Conn → Endian) (host : Endian) (a : Nat) (throws : Bool)
    (b : ByteState) : Prop :=
  Relation.ReflTransGen (fun x y => ∃ e, ByteEvent.Fits a throws e ∧ x.step address clientHost host e = some y) init b

end Switcher

end Tunnel
