import Tunnel.Run

/-!
# What a run reports

Every processor has an `EventCollector`, in which `Pop` and `Push` count the elements that go through its ports and add
up their bytes. An entry is found by the `index_` of the port's channel. When every coroutine is at its end, `Run` goes
through the nodes once more, pairs the result of each with its collector and returns a vector.

The time points of a collector are left out, with the flag of `InputPortRead` and `OutputPortWrite` that only sets one
of them: nothing reads them.
-/

namespace Tunnel

open Lib

variable {V : Type}

/-! ## The collector -/

/-- `EventCollector::port_statistic`. -/
structure PortStatistic where
  count : Nat := 0
  bytes : Nat := 0
  deriving DecidableEq, Repr

structure EventCollector where
  processorId : Id := 0
  processorName : Name := []
  inputPortsStatistic : PMap Nat PortStatistic := .empty
  outputPortsStatistic : PMap Nat PortStatistic := .empty

namespace EventCollector

/-- What `InputPortRead` and `OutputPortWrite` do to their map: an index without an entry gets one first. -/
def portUsed (ports : PMap Nat PortStatistic) (index bytes : Nat) : PMap Nat PortStatistic :=
  (ports.insert index {}).modify index (fun it => { count := it.count + 1, bytes := it.bytes + bytes })

def inputPortRead (c : EventCollector) (index bytes : Nat) : EventCollector :=
  { c with inputPortsStatistic := portUsed c.inputPortsStatistic index bytes }

def outputPortWrite (c : EventCollector) (index bytes : Nat) : EventCollector :=
  { c with outputPortsStatistic := portUsed c.outputPortsStatistic index bytes }

/-- The statistic of an input, zero as long as it has no entry. -/
def input (c : EventCollector) (index : Nat) : PortStatistic := (c.inputPortsStatistic.get index).getD {}

/-- The statistic of an output, zero as long as it has no entry. -/
def output (c : EventCollector) (index : Nat) : PortStatistic := (c.outputPortsStatistic.get index).getD {}

end EventCollector

/-- What the statistics depend on besides the pipeline: `GetTransferredBytes`, if the type of the values has it
(`RecordTransferredBytes`), and the `index_` of each channel that a user made. -/
structure Accounting (V : Type) where
  getTransferredBytes : Option (V → Nat)
  userIndex : UserChannel → Nat

namespace Accounting

/-- `transferred_bytes` in `Pop` and `Push`. -/
def transferredBytes (a : Accounting V) : Option V → Nat
  | some v => (a.getTransferredBytes.map (· v)).getD 0
  | none => 0

/-- `GetIndex()` of the channel of a port: `GetChannel` of a class with many ports sets it to the number of the port.
The channels that `connect` makes have index zero. -/
def getIndex (a : Accounting V) (multi : Bool) (port : Nat) (q : Queue) : Nat :=
  if multi then port else
  match q with
  | .link _ _ _ => 0
  | .user ch => a.userIndex ch

end Accounting

/-! ## Runs with collectors -/

/-- A pipeline that runs, and the collectors of its processors. -/
structure Traced (V : Type) where
  state : State V
  collectors : Id → EventCollector

namespace Traced

/-- The collector of a processor after its next step. `Pop` and `Push` use it, next to the queue; `close_input`,
`close_output` and the `after_work` of a `ChannelSink` work on the queues without it. -/
def observe (a : Accounting V) (s : State V) (u : Id) (c : EventCollector) : EventCollector :=
  match s.procs u with
  | none => c
  | some x =>
    match x.ctl, x.action with
    | .pop _, .pop i q =>
      match (s.queues q).content with
      | [] => c
      | v :: _ => c.inputPortRead (a.getIndex x.obj.kind.isMultiIn i q) (a.transferredBytes v)
    | .push _ _ _ _, .push o q v => c.outputPortWrite (a.getIndex x.obj.kind.isMultiOut o q) (a.transferredBytes v)
    | _, _ => c

/-- The state a step leads to, if it can be taken. -/
def step (a : Accounting V) (t : Traced V) (e : Event V) : Option (Traced V) :=
  (t.state.step e).map (fun s => {
    state := s
    collectors := match e with
      | .run u => Function.update t.collectors u (observe a t.state u (t.collectors u))
      | _ => t.collectors })

/-- `t'` is reached from `t` by steps. -/
def Reaches (a : Accounting V) (t t' : Traced V) :
    Prop := Relation.ReflTransGen (fun b c => ∃ e, b.step a e = some c) t t'

/-- A run along a list of steps. -/
def runAll (a : Accounting V) (t : Traced V) : List (Event V) → Option (Traced V)
  | [] => some t
  | e :: rest => (t.step a e).bind (fun t => runAll a t rest)

end Traced

/-- The state `Run` starts in; a collector is made with its processor, for its id and name. -/
def Pipeline.startTraced (p : Pipeline V) (pre : UserChannel → List (Option V)) (tokens : Nat) : Traced V where
  state := p.start pre tokens
  collectors u := { processorId := u, processorName := ((p.nodes.get u).map (·.name)).getD [] }

/-! ## The vector -/

/-- What `work_with_exception` left in its `Try`. -/
abbrev WorkResult := Except Cause Unit

structure ProcessorWorkResult where
  workResult : WorkResult
  eventCollector : EventCollector

namespace Traced

/-- The result of a coroutine that is at its end. -/
def workResult (t : Traced V) (u : Id) : Option WorkResult :=
  match t.state.procs u with
  | some x =>
    match x.ctl with
    | .finished none => some (.ok ())
    | .finished (some c) => some (.error c)
    | .escaped => some (.error (.callback false))
    | _ => none
  | none => none

/-- `result`, of one round of the last loop of `Run`. -/
def result (t : Traced V) (eachLazy : WorkResult) (node : Id) : ProcessorWorkResult := ⟨eachLazy, t.collectors node⟩

/-- The last loop of `Run`. The `result` of a round is a local of the loop's body and goes with it: no round adds to
`results`. -/
def resultsLoop (t : Traced V) : List WorkResult → List Id → List ProcessorWorkResult → List ProcessorWorkResult
  | eachLazy :: lazyResults, node :: nodes, results =>
    let _result := t.result eachLazy node
    t.resultsLoop lazyResults nodes results
  | _, _, results => results

/-- What `Run` returns once every coroutine is at its end. Both its loops go through `nodes_` in the same `order`, and
`collectAllPara` keeps the order of the lazies. -/
def run (t : Traced V) (order : IdSet) : Option (List ProcessorWorkResult) :=
  (order.elems.mapM t.workResult).map (fun lazyResults => t.resultsLoop lazyResults order.elems [])

end Traced

end Tunnel
