import Tunnel.Lib.Fifo
import Tunnel.Pipeline

/-!
# Running a pipeline

`Run` starts the coroutine `work_with_exception` of every processor. A processor is modelled by where its coroutine
stands (`Ctl`), cut at every `co_await` that touches a queue: between two of them it sees nothing but its own members.
The queues are atomic, so that a run of the pipeline is an interleaving of such steps, in any order the executors
choose.

Which step is next depends on where the coroutine stands alone (`Proc.action`): it pops a queue, pushes to one, asks or
fills the abort channel, or goes on by itself. What the step makes of the processor is `popped`, `pushed`, `checked`,
`notified` and `internal`. `taken` and `put` record what went through each port; nothing reads them.
-/

namespace Tunnel

open Lib Function

/-- Why an exception left `work()`: a callback threw it, a `std::exception` or anything else, or `Pop` or `Push` did, on
a token of the abort channel. -/
inductive Cause where
  | callback (standard : Bool)
  | abortChannel
  deriving DecidableEq, Repr

/-- `catch (const std::exception &e)` catches it. -/
def Cause.isStandard : Cause → Bool
  | .callback standard => standard
  | .abortChannel => true

/-- What ends the process: a failed `assert`, `GetQueue()` on a null channel, `std::abort()`. -/
inductive Death where
  | assertFailed
  | nullChannel
  | aborted
  deriving DecidableEq, Repr

/-- Where `work()` goes on after its pushes. -/
inductive Next where
  | generate
  | pop (i : Nat)
  | ret
  deriving DecidableEq, Repr

/-- Where the coroutine `work_with_exception` of a processor stands. -/
inductive Ctl (V : Type) where
  /-- before `before_work` -/
  | start
  /-- `Source::work`, before `generate` -/
  | generate
  /-- in `Pop`, on the queue of an input -/
  | pop (i : Nat)
  /-- in `Pop`, before the check of the abort channel, with the value read, or an EOF that was not the last -/
  | popCheck (i : Nat) (v : Option V)
  /-- `Pop` returned a value -/
  | handle (i : Nat) (v : V)
  /-- `Pop` returned EOF -/
  | eof (i : Nat)
  /-- in `Push`, on the queue of an output; then the pushes that follow in the same round of `work` -/
  | push (o : Nat) (v : Option V) (rest : List (Nat × Option V)) (next : Next)
  /-- in `Push`, before the check of the abort channel -/
  | pushCheck (rest : List (Nat × Option V)) (next : Next)
  /-- `work` returned -/
  | afterWork
  /-- an exception left `work` -/
  | threw (c : Cause)
  /-- `hosted_mode`, at `close_input` of an input -/
  | closeInput (c : Cause) (i : Nat)
  /-- `hosted_mode`, at `close_output` of an output -/
  | closeOutput (c : Cause) (o : Nat)
  /-- `work_with_exception` returned, or rethrew -/
  | finished (c : Option Cause)
  /-- without an abort channel, an exception that is no `std::exception` left `work_with_exception` before
  `std::abort()` -/
  | escaped
  /-- the process ended here -/
  | dead (d : Death)
  deriving DecidableEq

namespace Ctl

variable {V : Type}

/-- The pushes of one round of `work`, then where it goes on. -/
def emit (todo : List (Nat × Option V)) (next : Next) : Ctl V :=
  match todo, next with
  | (o, v) :: rest, next => .push o v rest next
  | [], .generate => .generate
  | [], .pop i => .pop i
  | [], .ret => .afterWork

def isDead : Ctl V → Bool
  | .dead _ => true
  | _ => false

def isFinished : Ctl V → Bool
  | .finished _ => true
  | _ => false

/-- The coroutine is at its end: it returned, or an exception left it. -/
def atEnd : Ctl V → Bool
  | .finished _ => true
  | .escaped => true
  | _ => false

end Ctl

namespace Kind

variable {V : Type}

/-- What a processor pushes for a value, given what its callback was called with before. -/
def onValue (k : Kind V) (calls : List V) (v : V) : List (Nat × V) :=
  match k with
  | .source (.generate _) => []
  | .source (.channel _) => [(0, v)]
  | .transform (.simple f) => [(0, f calls v)]
  | .transform .noOp => [(0, v)]
  | .transform (.filter f) => if f calls v then [] else [(0, v)]
  | .transform (.accumulate _) => []
  | .sink .consume => []
  | .sink (.channel _) => [(0, v)]
  | .dispatch n _ d => [(d calls v % n, v)]
  | .fork n _ => (List.range n).map (fun o => (o, v))
  | .concat _ _ => [(0, v)]

/-- What a processor pushes before it returns from `work`, once its inputs are at their end. -/
def onEof (k : Kind V) (calls : List V) : List (Nat × Option V) :=
  match k with
  | .source _ => [(0, none)]
  | .transform (.accumulate g) => [(0, some (g calls)), (0, none)]
  | .transform _ => [(0, none)]
  | .sink _ => []
  | .dispatch n _ _ => (List.range n).map (fun o => (o, none))
  | .fork n _ => (List.range n).map (fun o => (o, none))
  | .concat _ _ => [(0, none)]

/-- A value goes through a callback of the user's, which may throw. -/
def handles : Kind V → Bool
  | .transform .noOp => false
  | .transform _ => true
  | .sink .consume => true
  | .dispatch .. => true
  | _ => false

/-- `Accumulate` calls the user's `generate` at the end of its input. -/
def generatesAtEof : Kind V → Bool
  | .transform (.accumulate _) => true
  | _ => false

end Kind

namespace Processor

variable {V : Type}

/-- `--input_count`; the count of a `MultiIOneO` is a local of `Pop` and `close_input`, one at each call. -/
def countEof (p : Processor V) : Processor V :=
  if p.kind.isMultiIn then p else { p with inputCount := p.inputCount - 1 }

/-- `reset()` of the channel of an input. -/
def resetInput (p : Processor V) (i : Nat) : Processor V :=
  if p.kind.isMultiIn then { p with inputs := p.inputs.set i none } else { p with inputPort := none }

/-- `reset()` of the channel of an output. -/
def resetOutput (p : Processor V) (o : Nat) : Processor V :=
  if p.kind.isMultiOut then { p with outputs := p.outputs.set o none } else { p with outputPort := none }

end Processor

/-- The object of a processor that runs, and what went through each of its ports so far. -/
structure Ports (V : Type) where
  obj : Processor V
  taken : Nat → List (Option V)
  put : Nat → List (Option V)

namespace Ports

variable {V : Type}

/-- An element came from an input. -/
def take (x : Ports V) (i : Nat) (v : Option V) : Ports V := { x with taken := update x.taken i (x.taken i ++ [v]) }

/-- An element went to an output. -/
def give (x : Ports V) (o : Nat) (v : Option V) : Ports V := { x with put := update x.put o (x.put o ++ [v]) }

def countEof (x : Ports V) : Ports V := { x with obj := x.obj.countEof }

def resetInput (x : Ports V) (i : Nat) : Ports V := { x with obj := x.obj.resetInput i }

def resetOutput (x : Ports V) (o : Nat) : Ports V := { x with obj := x.obj.resetOutput o }

end Ports

/-- A processor that runs: its ports, where its coroutine stands, what its callback was called with so far and how often
`generate` was; `abortPort` is set when the pipeline binds the abort channel. -/
structure Proc (V : Type) extends Ports V where
  ctl : Ctl V
  abortPort : Bool
  calls : List V
  generated : Nat

/-- What a processor does next. -/
inductive Action (V : Type) where
  | pop (i : Nat) (q : Queue)
  | push (o : Nat) (q : Queue) (v : Option V)
  | tryPop
  | tryPush
  | internal
  | halt

namespace Proc

variable {V : Type}

/-- Pops the queue of an input; with a null channel there is none, and the processor goes on by itself. -/
def popAction (x : Proc V) (i : Nat) : Action V :=
  match x.obj.inChan i with
  | some q => .pop i q
  | none => .internal

def pushAction (x : Proc V) (o : Nat) (v : Option V) : Action V :=
  match x.obj.outChan o with
  | some q => .push o q v
  | none => .internal

/-- The next step of a processor. -/
def action (x : Proc V) : Action V :=
  match x.ctl with
  | .pop i => x.popAction i
  | .popCheck _ _ => if x.abortPort then .tryPop else .internal
  | .push o v _ _ => x.pushAction o v
  | .pushCheck _ _ => if x.abortPort then .tryPop else .internal
  | .afterWork => if x.obj.kind.isChannelSink then x.pushAction 0 none else .internal
  | .threw _ => if x.abortPort then .tryPush else .internal
  | .closeInput _ i => if i < x.obj.kind.nin then x.popAction i else .internal
  | .closeOutput _ o => if o < x.obj.kind.nout then x.pushAction o none else .internal
  | .finished _ => .halt
  | .escaped => .halt
  | .dead _ => .halt
  | _ => .internal

/-- The coroutine goes on elsewhere, with other ports. -/
def goto (x : Proc V) (ports : Ports V) (c : Ctl V) : Proc V := ⟨ports, c, x.abortPort, x.calls, x.generated⟩

/-- The queue of an input gave an element. The EOF that brings the count to zero is the last one. -/
def popped (x : Proc V) (i : Nat) (v : Option V) : Proc V :=
  let ports := x.toPorts.take i v
  match x.ctl, v with
  | .pop _, some a => x.goto ports (.popCheck i (some a))
  | .pop _, none =>
    if x.obj.need = 0 then x.goto ports (.dead .assertFailed)
    else if x.obj.need = 1 then x.goto (ports.countEof.resetInput i) (.eof i)
    else x.goto ports.countEof (.popCheck i none)
  | .closeInput c _, some _ => x.goto ports (.closeInput c i)
  | .closeInput c _, none =>
    if x.obj.need = 0 then x.goto ports (.dead .assertFailed)
    else if x.obj.need = 1 then x.goto ports.countEof (.closeInput c (i + 1))
    else x.goto ports.countEof (.closeInput c i)
  | _, _ => x

/-- The queue of an output took an element; an EOF from `work` resets the channel. -/
def pushed (x : Proc V) (o : Nat) (v : Option V) : Proc V :=
  let ports := x.toPorts.give o v
  match x.ctl, v with
  | .push _ _ rest next, some _ => x.goto ports (.pushCheck rest next)
  | .push _ _ rest next, none => x.goto (ports.resetOutput o) (.pushCheck rest next)
  | .afterWork, _ => x.goto ports (.finished none)
  | .closeOutput c _, _ => x.goto ports (.closeOutput c (o + 1))
  | _, _ => x

/-- The check of the abort channel is over: it gave a token, or not. -/
def checked (x : Proc V) (token : Bool) : Proc V :=
  if token then { x with ctl := .threw .abortChannel } else
  match x.ctl with
  | .popCheck i (some a) => { x with ctl := .handle i a }
  | .popCheck i none => { x with ctl := .pop i }
  | .pushCheck rest next => { x with ctl := .emit rest next }
  | _ => x

/-- `TryPush` on the abort channel is over; `hosted_mode` begins. -/
def notified (x : Proc V) : Proc V :=
  match x.ctl with
  | .threw c => { x with ctl := .closeInput c 0 }
  | _ => x

/-- The beginning of `work`. -/
def work (x : Proc V) : Proc V :=
  match x.obj.kind with
  | .source (.generate _) => { x with ctl := .generate }
  | _ => { x with ctl := .pop 0 }

/-- `generate` of a `Source` returned. -/
def generating (x : Proc V) : Proc V :=
  match x.obj.kind with
  | .source (.generate g) =>
    let v := g x.generated
    { x with generated := x.generated + 1, ctl := .emit [(0, v)] (if v.isSome then .generate else .ret) }
  | _ => x

/-- What `work` does once an input is at its end: a `Concat` turns to its next input. -/
def ended (x : Proc V) (i : Nat) : Proc V :=
  if i + 1 < x.obj.kind.nin then { x with ctl := .pop (i + 1) }
  else { x with ctl := .emit (x.obj.kind.onEof x.calls) .ret }

/-- The processor goes on without a queue. -/
def internal (x : Proc V) : Proc V :=
  match x.ctl with
  | .start => if x.obj.beforeWork then x.work else { x with ctl := .dead .aborted }
  | .generate => x.generating
  | .handle i a => { x with
      calls := x.calls ++ [a], ctl := .emit ((x.obj.kind.onValue x.calls a).map (fun w => (w.1, some w.2))) (.pop i) }
  | .eof i => x.ended i
  | .popCheck _ _ => x.checked false
  | .pushCheck _ _ => x.checked false
  | .afterWork =>
    if x.obj.kind.isChannelSink then { x with ctl := .dead .nullChannel } else { x with ctl := .finished none }
  | .threw c => { x with ctl := if c.isStandard then .dead .aborted else .escaped }
  | .closeInput c i => { x with ctl := if i < x.obj.kind.nin then .closeInput c (i + 1) else .closeOutput c 0 }
  | .closeOutput c o => { x with ctl := if o < x.obj.kind.nout then .closeOutput c (o + 1) else .finished (some c) }
  | .pop _ => { x with ctl := .dead .nullChannel }
  | .push _ _ _ _ => { x with ctl := .dead .nullChannel }
  | .finished _ => x
  | .escaped => x
  | .dead _ => x

/-- The coroutine stands at a callback of the user's. -/
def inCallback (x : Proc V) : Bool :=
  match x.ctl with
  | .generate => true
  | .handle _ _ => x.obj.kind.handles
  | .eof _ => x.obj.kind.generatesAtEof
  | _ => false

end Proc

/-- Who put an element into a queue: an output of a processor, or somebody outside the pipeline. -/
inductive Writer where
  | port (id : Id) (o : Nat)
  | outside
  deriving DecidableEq

/-- A pipeline that runs. `dead` is set once the process ended. -/
structure State (V : Type) where
  procs : Id → Option (Proc V)
  queues : Queue → Fifo Writer (Option V)
  tokens : Nat
  abortCapacity : Nat
  dead : Bool

/-- A step of a run: one of a processor, whose callback may throw, or one from outside on a channel of the user's or on
the abort channel. -/
inductive Event (V : Type) where
  | run (id : Id)
  | throw (id : Id) (standard : Bool)
  | send (channel : UserChannel) (v : Option V)
  | receive (channel : UserChannel)
  | addToken
  | takeToken

/-- A callback throws in this step. -/
def Event.isThrow {V : Type} : Event V → Bool
  | .throw _ _ => true
  | _ => false

/-- The processor whose step it is. -/
def Event.proc {V : Type} : Event V → Option Id
  | .run u => some u
  | .throw u _ => some u
  | _ => none

namespace State

variable {V : Type}

/-- A processor moves. -/
def setProc (s : State V) (u : Id) (x : Proc V) : State V :=
  { s with procs := update s.procs u (some x), dead := s.dead || x.ctl.isDead }

def setQueue (s : State V) (q : Queue) (f : Fifo Writer (Option V)) : State V :=
  { s with queues := update s.queues q f }

/-- The queue has room for an element. -/
def hasRoom (s : State V) (q : Queue) : Bool := (s.queues q).content.length < q.capacity

/-- A step of a processor: it waits when the queue it wants to pop is empty or the one it wants to push to is full. -/
def stepProc (s : State V) (u : Id) (x : Proc V) : Option (State V) :=
  match x.action with
  | .pop i q =>
    match (s.queues q).content with
    | [] => none
    | v :: _ => some ((s.setQueue q (s.queues q).pop).setProc u (x.popped i v))
  | .push o q v =>
    if s.hasRoom q then some ((s.setQueue q ((s.queues q).push (.port u o) v)).setProc u (x.pushed o v)) else none
  | .tryPop => some ({ s with tokens := s.tokens - 1 }.setProc u (x.checked (0 < s.tokens)))
  | .tryPush =>
    some ({ s with tokens := if s.tokens < s.abortCapacity then s.tokens + 1 else s.tokens }.setProc u x.notified)
  | .internal => some (s.setProc u x.internal)
  | .halt => none

/-- The state a step leads to, if it can be taken. -/
def step (s : State V) (e : Event V) : Option (State V) :=
  if s.dead then none else
  match e with
  | .run u => (s.procs u).bind (s.stepProc u)
  | .throw u standard =>
    (s.procs u).bind (fun x => if x.inCallback then some (s.setProc u { x with ctl := .threw (.callback standard) })
      else none)
  | .send ch v =>
    if s.hasRoom (.user ch) then some (s.setQueue (.user ch) ((s.queues (.user ch)).push .outside v)) else none
  | .receive ch =>
    match (s.queues (.user ch)).content with
    | [] => none
    | _ :: _ => some (s.setQueue (.user ch) (s.queues (.user ch)).pop)
  | .addToken => if s.tokens < s.abortCapacity then some { s with tokens := s.tokens + 1 } else none
  | .takeToken => if 0 < s.tokens then some { s with tokens := s.tokens - 1 } else none

/-- `s'` is reached from `s` by steps. -/
def Reaches (s s' : State V) : Prop := Relation.ReflTransGen (fun a b => ∃ e, a.step e = some b) s s'

/-- `s'` is reached from `s` by such steps alone. -/
def ReachesBy (allowed : Event V → Prop) (s s' : State V) : Prop :=
  Relation.ReflTransGen (fun a b => ∃ e, allowed e ∧ a.step e = some b) s s'

/-- The processor can take a step. -/
def canStep (s : State V) (u : Id) : Bool := (s.step (.run u)).isSome

/-- A run along a list of steps. -/
def runAll (s : State V) : List (Event V) → Option (State V)
  | [] => some s
  | e :: rest => (s.step e).bind (fun s => runAll s rest)

end State

namespace Pipeline

variable {V : Type}

/-- The processors as `Run` starts them. -/
def startProc (p : Pipeline V) (n : Processor V) : Proc V where
  obj := n
  ctl := .start
  abortPort := p.option.bindAbortChannel
  calls := []
  generated := 0
  taken := fun _ => []
  put := fun _ => []

/-- The capacity of the abort channel `Run` makes when none was set. -/
def defaultAbortCapacity : Nat := 10

/-- The state `Run` starts in: the queues of the pipeline are empty; what the channels of the user hold is `pre`, and
`tokens` is what the abort channel holds. -/
def start (p : Pipeline V) (pre : UserChannel → List (Option V)) (tokens : Nat) : State V where
  procs u := (p.nodes.get u).map p.startProc
  queues q := match q with
    | .link .. => .ofList .outside []
    | .user ch => .ofList .outside (pre ch)
  tokens := tokens
  abortCapacity := match p.abortChannel with
    | some ch => ch.capacity
    | none => defaultAbortCapacity
  dead := false

end Pipeline

section several

variable {V : Type}

/-- The processors of several pipelines. -/
def startProcs (ps : List (Pipeline V)) (u : Id) :
    Option (Proc V) := ps.findSome? (fun p => (p.nodes.get u).map p.startProc)

/-- `Run` of several pipelines that hold one abort channel of this capacity. -/
def startAll (ps : List (Pipeline V)) (capacity : Nat) : State V where
  procs := startProcs ps
  queues _ := .ofList .outside []
  tokens := 0
  abortCapacity := capacity
  dead := false

end several

end Tunnel
