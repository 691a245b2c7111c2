import Mathlib.Logic.Relation
import Tunnel.Lib.PMap
import Tunnel.Wire

/-!
# The switcher

`switcher/switcher.h` and `switcher/switcher_client.h`: clients push values on topics and pop them, and the server
brings a push and a pop on one topic together. The server runs on one thread, so that between two `co_await`s nothing
else happens; a step is what a coroutine or a client does up to its next one. A connection carries packages in both
directions and in their order, and a package is read when it is there completely; whoever reads it decodes its bytes as
the type that they ask for, whatever it is. Reads and writes of the server may fail at any time, and so may its accept
loop; the `Serialize` of a value that is pushed may throw.

`calls`, `returns`, `served`, `opened`, `closed`, `handled`, `delivered` and `acked` record what happened; nothing reads
them, but that a connection is accepted once and that a call ends with an exception after the server closed its
connection.
-/

namespace Tunnel

open Lib

namespace Switcher

abbrev Topic := Bytes

/-- A connection, from the socket of one client to the one that the server got for it from its acceptor. -/
abbrev Conn := Nat

def requestTypePush : Int32 := 0x00
def requestTypePop : Int32 := 0x01
def requestTypeCheckTopicExist : Int32 := 0x02
def requestTypeCloseTopic : Int32 := 0x03

def responseOk : Int32 := 0x00
def responseTopicNotExist : Int32 := 0x01

/-- What goes over a connection. -/
inductive Message where
  | request (pkg : RequestPackage)
  | data (pkg : DataPackage)
  | response (pkg : ResponsePackage)
  deriving DecidableEq

/-! ## Decoding -/

/-- What a `read_package` is asked for. -/
inductive Kind where
  | request
  | data
  | response
  deriving DecidableEq

namespace Message

def kind : Message → Kind
  | .request _ => .request
  | .data _ => .data
  | .response _ => .response

/-- The bytes of a package, behind its length. -/
def body (host : Endian) : Message → Except WireFault Bytes
  | .request pkg => serializeRequest host pkg []
  | .data pkg => serializeData host pkg []
  | .response pkg => serializeResponse host pkg []

/-- `Deserialize<T>` of the bytes of a package. Which hosts write and read it makes no difference. -/
def decode {α : Type} (m : Message) (read : WireReader α) : Option α :=
  match m.body .big with
  | .ok buffer => (deserializeView read buffer).toOption
  | .error _ => none

/-- What `read_package<request_package>` makes of a package: a request comes back as it was written, anything else is
decoded as one. -/
def asRequest : Message → Option RequestPackage
  | .request pkg => some pkg
  | m => m.decode (deserializeRequest .big)

def asData : Message → Option DataPackage
  | .data pkg => some pkg
  | m => m.decode (deserializeData .big)

def asResponse : Message → Option ResponsePackage
  | .response pkg => some pkg
  | m => m.decode (deserializeResponse .big)

end Message

/-! ## Clients -/

/-- A call of a `SwitcherClient`. A value of `Push` is what its `Serialize` makes of it, if it returns, or there is
none. -/
inductive Call where
  | push (topic : Topic) (value : Option Bytes)
  | pop (topic : Topic)
  | closeTopic (topic : Topic)
  | checkTopicExist (topic : Topic)
  deriving DecidableEq

namespace Call

def topic : Call → Topic
  | .push topic _ => topic
  | .pop topic => topic
  | .closeTopic topic => topic
  | .checkTopicExist topic => topic

def type : Call → Int32
  | .push _ _ => requestTypePush
  | .pop _ => requestTypePop
  | .closeTopic _ => requestTypeCloseTopic
  | .checkTopicExist _ => requestTypeCheckTopicExist

/-- The request of a call. Nobody sets `timeout_ms`, so it is what it happens to be. -/
def request (k : Call) (timeoutMs : Int32) :
    RequestPackage := { topic := k.topic, type := k.type, timeoutMs := timeoutMs }

end Call

/-- The data package that `Push` sends. -/
def dataPackage : Option Bytes → DataPackage
  | some value => { data := value, metaInfo := [], eof := false }
  | none => { data := [], metaInfo := [], eof := true }

/-- What `Pop` makes of a data package. -/
def valueOf (dp : DataPackage) : Option Bytes := if dp.eof = true then none else some dp.data

/-- Where a client stands. -/
inductive ClientCtl where
  | idle
  /-- in `Push`, between the request and the data -/
  | pushRequested (topic : Topic) (value : Option Bytes)
  /-- in `Push`, before its response -/
  | pushWaits (topic : Topic) (value : Option Bytes)
  /-- in `Pop`, before the data -/
  | popWaits (topic : Topic)
  /-- in `Pop`, between the data and the response -/
  | popGot (topic : Topic) (dp : DataPackage)
  | closeWaits (topic : Topic)
  | checkWaits (topic : Topic)
  deriving DecidableEq

/-- What a call returned. -/
inductive Return where
  | pushed (topic : Topic)
  | popped (topic : Topic) (value : Option Bytes)
  | code (topic : Topic) (responseCode : Int32)
  | topicExists (topic : Topic) (answer : Bool)
  deriving DecidableEq

/-- A client and its connection: what is on the way to the server and what to the client, the calls so far and what they
returned, and how many requests the server has read. -/
structure Session where
  ctl : ClientCtl := .idle
  inbox : List Message := []
  outbox : List Message := []
  calls : List Call := []
  returns : List Return := []
  served : Nat := 0

/-- The package that a client waits for. -/
def ClientCtl.reads : ClientCtl → Option Kind
  | .idle => none
  | .pushRequested _ _ => none
  | .pushWaits _ _ => some .response
  | .popWaits _ => some .data
  | .popGot _ _ => some .response
  | .closeWaits _ => some .response
  | .checkWaits _ => some .response

/-- A read of a package: nothing is there, its bytes cannot be decoded, or they can. -/
inductive Read (α : Type) where
  | blocked
  | fault (a : α)
  | ok (a : α)

namespace Session

/-- A call begins: its request is written. -/
def begin (x : Session) (k : Call) (timeoutMs : Int32) : Session :=
  { x with
    ctl := match k with
      | .push topic value => .pushRequested topic value
      | .pop topic => .popWaits topic
      | .closeTopic topic => .closeWaits topic
      | .checkTopicExist topic => .checkWaits topic
    inbox := x.inbox ++ [.request (k.request timeoutMs)]
    calls := x.calls ++ [k] }

/-- `Push` goes on with the data. -/
def sendData (x : Session) : Option Session :=
  match x.ctl with
  | .pushRequested topic value =>
    some { x with ctl := .pushWaits topic value, inbox := x.inbox ++ [.data (dataPackage value)] }
  | _ => none

/-- The `Serialize` of the value throws, between the request and the data. `Push` ends with the exception; its request
stays sent, and the connection stays open. -/
def serializeThrows (x : Session) : Option Session :=
  match x.ctl with
  | .pushRequested _ (some _) => some { x with ctl := .idle }
  | _ => none

/-- The call returns. -/
def finish (x : Session) (outbox : List Message) (r : Return) : Session :=
  { x with ctl := .idle, outbox := outbox, returns := x.returns ++ [r] }

/-- A call goes on with what it makes of a package. -/
def goOn {α : Type} (x : Session) (rest : List Message) (next : α → Session) : Option α → Read Session
  | some a => .ok (next a)
  | none => .fault { x with outbox := rest }

/-- A call goes on with the package it waits for. -/
def receive (x : Session) : Read Session :=
  match x.ctl, x.outbox with
  | .idle, _ => .blocked
  | .pushRequested _ _, _ => .blocked
  | _, [] => .blocked
  | .pushWaits topic _, m :: rest => x.goOn rest (fun _ => x.finish rest (.pushed topic)) m.asResponse
  | .popWaits topic, m :: rest => x.goOn rest (fun dp => { x with ctl := .popGot topic dp, outbox := rest }) m.asData
  | .popGot topic dp, m :: rest => x.goOn rest (fun _ => x.finish rest (.popped topic (valueOf dp))) m.asResponse
  | .closeWaits topic, m :: rest => x.goOn rest (fun r => x.finish rest (.code topic r.responseCode)) m.asResponse
  | .checkWaits topic, m :: rest =>
    x.goOn rest (fun r => x.finish rest (.topicExists topic (r.responseCode == responseOk))) m.asResponse

end Session

/-! ## The server -/

/-- The sockets that wait on a topic; the back of each vector comes first. -/
structure PendingNodes where
  pushingNodes : List Conn := []
  popingNodes : List Conn := []
  deriving DecidableEq

/-- The next thing `transfer_data` does. -/
inductive Phase where
  | readData
  | writeData (dpkg : DataPackage)
  | answerPush
  | answerPop
  deriving DecidableEq

/-- A coroutine of the server that owns a socket: `handle`, which waits for a request or writes a response, or
`transfer_data`, as the owner of `push_socket`. -/
inductive Frame where
  | handle
  | answer (rpkg : ResponsePackage)
  | transfer (pop : Conn) (topic : Topic) (phase : Phase)
  deriving DecidableEq

/-- The package that a coroutine of the server waits for. -/
def Frame.reads : Frame → Option Kind
  | .handle => some .request
  | .transfer _ _ .readData => some .data
  | _ => none

/-- A value that was written to a pop connection: the calls of the push and of the pop, by their number among the calls
of the client. -/
structure Delivery where
  push : Conn
  pushCall : Nat
  pop : Conn
  popCall : Nat
  topic : Topic
  data : DataPackage
  deriving DecidableEq

/-- The server with its clients. `accepting` says that `start_accept` has not ended; `fault` is set when bytes are
decoded that are no package of the type asked for: an `assert` fails, or the decoder reads outside its view. -/
structure State where
  sessions : Conn → Session
  datas : PMap Topic PendingNodes
  frames : Conn → Option Frame
  accepting : Bool
  fault : Bool
  opened : List Conn
  closed : List Conn
  handled : List RequestPackage
  delivered : List Delivery
  acked : List (Conn × Nat)

namespace State

/-- The server before its first client. -/
def init : State where
  sessions := fun _ => {}
  datas := .empty
  frames := fun _ => none
  accepting := true
  fault := false
  opened := []
  closed := []
  handled := []
  delivered := []
  acked := []

def setSession (s : State) (c : Conn) (x : Session) : State := { s with sessions := Function.update s.sessions c x }

/-- A socket moves to a coroutine, or out of one. -/
def setFrame (s : State) (c : Conn) (f : Option Frame) : State := { s with frames := Function.update s.frames c f }

/-- A package was read that could not be decoded. -/
def failed (s : State) : State := { s with fault := true }

/-- `write_package`. -/
def write (s : State) (c : Conn) (m : Message) : State :=
  s.setSession c { s.sessions c with outbox := (s.sessions c).outbox ++ [m] }

/-- The sockets are destroyed, with the coroutines that own them. -/
def destroy (s : State) (cs : List Conn) : State :=
  { s with frames := fun c => if c ∈ cs then none else s.frames c, closed := s.closed ++ cs }

/-- The server has destroyed the socket of a connection, or did not accept it and accepts none any more. -/
def Lost (s : State) (c : Conn) : Prop := c ∈ s.closed ∨ (c ∉ s.opened ∧ s.accepting = false)

instance (s : State) (c : Conn) : Decidable (s.Lost c) := inferInstanceAs (Decidable (_ ∨ _))

/-- The entry of a topic, an empty one if there is none. -/
def nodes (s : State) (topic : Topic) : PendingNodes := (s.datas.get topic).getD {}

/-- `handle_push_request`. -/
def handlePushRequest (s : State) (c : Conn) (topic : Topic) : State :=
  match (s.nodes topic).popingNodes with
  | [] =>
    { s.setFrame c none with
      datas := s.datas.assign topic { s.nodes topic with pushingNodes := c :: (s.nodes topic).pushingNodes } }
  | pop :: rest =>
    { s.setFrame c (some (.transfer pop topic .readData)) with
      datas := s.datas.assign topic { s.nodes topic with popingNodes := rest } }

/-- `handle_pop_request`. -/
def handlePopRequest (s : State) (c : Conn) (topic : Topic) : State :=
  match (s.nodes topic).pushingNodes with
  | [] =>
    { s.setFrame c none with
      datas := s.datas.assign topic { s.nodes topic with popingNodes := c :: (s.nodes topic).popingNodes } }
  | push :: rest =>
    { (s.setFrame c none).setFrame push (some (.transfer c topic .readData)) with
      datas := s.datas.assign topic { s.nodes topic with pushingNodes := rest } }

/-- `handle_check_topic_exist`. -/
def handleCheckTopicExist (s : State) (c : Conn) (topic : Topic) : State :=
  s.setFrame c (some (.answer
    { topic := topic
      waitMs := 0
      peerAddr := []
      responseCode := if (s.datas.get topic).isSome then responseOk else responseTopicNotExist }))

/-- `handle_close_topic_request`: the sockets in the entry are destroyed with it. -/
def handleCloseTopicRequest (s : State) (c : Conn) (topic : Topic) : State :=
  { (s.destroy ((s.nodes topic).pushingNodes ++ (s.nodes topic).popingNodes)).setFrame c (some (.answer
      { topic := topic
        waitMs := 0
        peerAddr := []
        responseCode := responseOk })) with
    datas := s.datas.erase topic }

/-- `handle`, with the request it has read. A request of no known type throws, and the socket is destroyed. -/
def handle (s : State) (c : Conn) (pkg : RequestPackage) : State :=
  let s := { s with handled := s.handled ++ [pkg] }
  if pkg.type = requestTypePush then s.handlePushRequest c pkg.topic
  else if pkg.type = requestTypePop then s.handlePopRequest c pkg.topic
  else if pkg.type = requestTypeCloseTopic then s.handleCloseTopicRequest c pkg.topic
  else if pkg.type = requestTypeCheckTopicExist then s.handleCheckTopicExist c pkg.topic
  else s.destroy [c]

/-- The response that `transfer_data` writes, with the address of the other side. -/
def transferResponse (topic : Topic) (peerAddr : Bytes) : Message :=
  .response { topic := topic, waitMs := 0, peerAddr := peerAddr, responseCode := responseOk }

/-- `transfer_data`, from one `co_await` to the next. -/
def transferData (address : Conn → Bytes) (s : State) (push pop : Conn) (topic : Topic) : Phase → Option State
  | .readData =>
    match (s.sessions push).inbox with
    | [] => none
    | m :: rest =>
      let s := s.setSession push { s.sessions push with inbox := rest }
      match m.asData with
      | some dpkg => some (s.setFrame push (some (.transfer pop topic (.writeData dpkg))))
      | none => some s.failed
  | .writeData dpkg =>
    some { (s.write pop (.data dpkg)).setFrame push (some (.transfer pop topic .answerPush)) with
      delivered := s.delivered ++ [
        { push := push
          pushCall := (s.sessions push).served - 1
          pop := pop
          popCall := (s.sessions pop).served - 1
          topic := topic
          data := dpkg }] }
  | .answerPush =>
    some
      { (s.write push (transferResponse topic (address pop))).setFrame push (some (.transfer pop topic .answerPop)) with
      acked := s.acked ++ [(push, (s.sessions push).served - 1)] }
  | .answerPop =>
    some (((s.write pop (transferResponse topic (address push))).setFrame push (some .handle)).setFrame pop
      (some .handle))

end State

/-- The steps: those of the clients, and those of the server with their failures. A coroutine is named by the connection
it owns. -/
inductive Event where
  | call (c : Conn) (k : Call) (timeoutMs : Int32)
  | sendData (c : Conn)
  /-- the `Serialize` of the value of a push throws -/
  | serializeThrows (c : Conn)
  | receive (c : Conn)
  /-- a call ends with an exception, since the server closed the connection -/
  | raise (c : Conn)
  | accept (c : Conn)
  /-- `async_accept` throws, or `get_remote_ipport` of the socket it returned, and `start_accept` ends -/
  | acceptFails
  | request (c : Conn)
  /-- the read of a request fails, the client has closed the connection, or `get_remote_ipport` throws -/
  | requestFails (c : Conn)
  | answer (c : Conn)
  | answerFails (c : Conn)
  | transfer (push : Conn)
  | transferFails (push : Conn)

/-- No `Serialize` of a value throws in the step. -/
def Event.serializes : Event → Bool
  | .serializeThrows _ => false
  | _ => true

namespace State

/-- The state a step leads to, if it can be taken. -/
def step (address : Conn → Bytes) (s : State) : Event → Option State
  | .call c k timeoutMs => if (s.sessions c).ctl = .idle then some (s.setSession c ((s.sessions c).begin k timeoutMs))
  else none
  | .sendData c => (s.sessions c).sendData.map (s.setSession c)
  | .serializeThrows c => (s.sessions c).serializeThrows.map (s.setSession c)
  | .receive c =>
    match (s.sessions c).receive with
    | .blocked => none
    | .fault x => some (s.setSession c x).failed
    | .ok x => some (s.setSession c x)
  | .raise c => if s.Lost c then some (s.setSession c { s.sessions c with ctl := .idle, outbox := [] }) else none
  | .accept c =>
    if c ∉ s.opened ∧ s.accepting = true then some { s.setFrame c (some .handle) with opened := s.opened ++ [c] }
      else none
  | .acceptFails => if s.accepting = true then some { s with accepting := false } else none
  | .request c =>
    match s.frames c, (s.sessions c).inbox with
    | some .handle, m :: rest =>
      match m.asRequest with
      | some pkg =>
        some ((s.setSession c { s.sessions c with inbox := rest, served := (s.sessions c).served + 1 }).handle c pkg)
      | none => some (s.setSession c { s.sessions c with inbox := rest }).failed
    | _, _ => none
  | .requestFails c =>
    match s.frames c with
    | some .handle => some (s.destroy [c])
    | _ => none
  | .answer c =>
    match s.frames c with
    | some (.answer rpkg) => some ((s.write c (.response rpkg)).setFrame c (some .handle))
    | _ => none
  | .answerFails c =>
    match s.frames c with
    | some (.answer _) => some (s.destroy [c])
    | _ => none
  | .transfer push =>
    match s.frames push with
    | some (.transfer pop topic phase) => s.transferData address push pop topic phase
    | _ => none
  | .transferFails push =>
    match s.frames push with
    | some (.transfer pop _ _) => some (s.destroy [push, pop])
    | _ => none

/-- `s` is reached from the beginning. -/
def Reachable (address : Conn → Bytes) (s : State) : Prop :=
  Relation.ReflTransGen (fun a b => ∃ e, a.step address e = some b) init s

/-- `s` is reached from the beginning by steps that are allowed. -/
def ReachableBy (address : Conn → Bytes) (allowed : Event → Prop) (s : State) : Prop :=
  Relation.ReflTransGen (fun a b => ∃ e, allowed e ∧ a.step address e = some b) init s

/-- A run along a list of steps. -/
def runAll (address : Conn → Bytes) (s : State) : List Event → Option State
  | [] => some s
  | e :: rest => (s.step address e).bind (fun s => runAll address s rest)

end State

end Switcher

end Tunnel
