import Mathlib.Data.List.Basic
import Mathlib.Order.Basic
import Tunnel.Lib.Text

/-!
# Queues, channels and processors

The data model of `tunnel/channel.h`, `tunnel/processor.h` and the node classes. A `Channel` is a shared pointer to a
bounded queue, null after `reset()`: here an `Option Queue`. What a user writes, the callbacks `generate`, `transform`,
`filter`, `dispatch` and `consume`, is a parameter of the kind: a callback may keep state, so it is given what it was
called with before (`List V`) besides its argument.
-/

namespace Tunnel

open Lib

/-- A processor id, as `GenerateId` hands it out. -/
abbrev Id := Nat

/-- The name of a pipeline or a processor: a `std::string` holds any bytes. -/
abbrev Name := Bytes

/-- A literal is in UTF-8, as the source files are. -/
instance : Coe String Name := ⟨fun s => utf8 (chars s)⟩

/-- A channel that a user makes and hands to a `ChannelSource` or a `ChannelSink`. -/
structure UserChannel where
  name : Nat
  capacity : Nat
  deriving DecidableEq, Repr

/-- A bounded queue, by identity. `make_shared` gives every queue of a pipeline an identity of its own: the processor
that is going to read it and the input of that processor it is made for, since a queue is made for one input and for no
other. The capacity is a constant of the object. -/
inductive Queue where
  | link (reader : Id) (port : Nat) (capacity : Nat)
  | user (channel : UserChannel)
  deriving DecidableEq, Repr

/-- `BoundedQueue::Capacity`. -/
def Queue.capacity : Queue → Nat
  | .link _ _ c => c
  | .user ch => ch.capacity

/-- The queue was made by a pipeline, not by a user. -/
def Queue.isLink : Queue → Bool
  | .link .. => true
  | .user _ => false

/-- `Source<T>` with the user's `generate` (its n-th result, `none` for EOF), or `ChannelSource<T>` with the channel
that `SetInputChannel` set, if it was called. -/
inductive SourceKind (V : Type) where
  | generate (generate : Nat → Option V)
  | channel (input : Option UserChannel)

/-- The subclasses of `Transform<T>`: `SimpleTransform`, `NoOpTransform`, `Filter`, `Accumulate`. -/
inductive TransformKind (V : Type) where
  | simple (transform : List V → V → V)
  | noOp
  | filter (filter : List V → V → Bool)
  | accumulate (generate : List V → V)

/-- `Sink<T>`, or `ChannelSink<T>` with the channel that `SetOutputChannel` set, if it was called. -/
inductive SinkKind where
  | consume
  | channel (output : Option UserChannel)

/-- The class of a processor. The constructors of `Dispatch`, `Fork` and `Concat` assert that their size is positive. -/
inductive Kind (V : Type) where
  | source (k : SourceKind V)
  | transform (k : TransformKind V)
  | sink (k : SinkKind)
  | dispatch (size : Nat) (pos : 0 < size) (dispatch : List V → V → Nat)
  | fork (size : Nat) (pos : 0 < size)
  | concat (size : Nat) (pos : 0 < size)

namespace Kind

variable {V : Type}

/-- The number of inputs the class reads. -/
def nin : Kind V → Nat
  | .source (.generate _) => 0
  | .source (.channel _) => 1
  | .transform _ => 1
  | .sink _ => 1
  | .dispatch .. => 1
  | .fork .. => 1
  | .concat n _ => n

/-- The number of outputs the class writes. -/
def nout : Kind V → Nat
  | .source _ => 1
  | .transform _ => 1
  | .sink .consume => 0
  | .sink (.channel _) => 1
  | .dispatch n _ _ => n
  | .fork n _ => n
  | .concat .. => 1

/-- The subclasses of `MultiIOneO`, which keep their inputs in `inputs_` and count one EOF for each. -/
def isMultiIn : Kind V → Bool
  | .concat .. => true
  | _ => false

/-- The subclasses of `OneIMultiO`, which keep their outputs in `outputs_`. -/
def isMultiOut : Kind V → Bool
  | .dispatch .. => true
  | .fork .. => true
  | _ => false

/-- `ChannelSource`: it reads a channel from outside the pipeline. -/
def isChannelSource : Kind V → Bool
  | .source (.channel _) => true
  | _ => false

/-- `ChannelSink`: it writes to a channel from outside the pipeline. -/
def isChannelSink : Kind V → Bool
  | .sink (.channel _) => true
  | _ => false

def isSource : Kind V → Bool
  | .source _ => true
  | _ => false

def isSink : Kind V → Bool
  | .sink _ => true
  | _ => false

end Kind

/-- A processor object: its class, its ports and `input_count_`, the EOFs it waits for on `input_port`. -/
structure Processor (V : Type) where
  name : Name
  kind : Kind V
  inputPort : Option Queue := none
  outputPort : Option Queue := none
  inputs : List (Option Queue) := []
  outputs : List (Option Queue) := []
  inputCount : Nat := 0

namespace Processor

variable {V : Type}

/-- A `Source` or a `ChannelSource`; the latter's constructor sets `input_count_` to one. -/
def ofSource (name : Name) (k : SourceKind V) : Processor V :=
  match k with
  | .generate g => { name := name, kind := .source (.generate g) }
  | .channel ch => { name := name, kind := .source (.channel ch), inputPort := ch.map .user, inputCount := 1 }

def ofTransform (name : Name) (k : TransformKind V) : Processor V := { name := name, kind := .transform k }

/-- A `Sink` or a `ChannelSink`, whose output port is the user's channel. -/
def ofSink (name : Name) (k : SinkKind) : Processor V :=
  match k with
  | .consume => { name := name, kind := .sink .consume }
  | .channel ch => { name := name, kind := .sink (.channel ch), outputPort := ch.map .user }

/-- `NoOpTransform`, whose constructor names it. -/
def noOp : Processor V := ofTransform "no_op" .noOp

/-- `SetInputPort`. -/
def setInputPort (p : Processor V) (q : Queue) : Processor V :=
  { p with inputPort := some q, inputCount := p.inputCount + 1 }

/-- `SetOutputPort`. -/
def setOutputPort (p : Processor V) (q : Queue) : Processor V := { p with outputPort := some q }

/-- `MultiIOneO::AddInputPort`. -/
def addInputPort (p : Processor V) (q : Queue) : Processor V := { p with inputs := p.inputs ++ [some q] }

/-- `OneIMultiO::AddOutputPort`. -/
def addOutputPort (p : Processor V) (q : Queue) : Processor V := { p with outputs := p.outputs ++ [some q] }

/-- The channel of an input: `GetChannel(i)` of a `MultiIOneO`, `GetInputPort()` of the others. -/
def inChan (p : Processor V) (i : Nat) : Option Queue :=
  if p.kind.isMultiIn then (p.inputs[i]?).join else if i = 0 then p.inputPort else none

/-- The channel of an output: `GetChannel(o)` of a `OneIMultiO`, `GetOutputPort()` of the others. -/
def outChan (p : Processor V) (o : Nat) : Option Queue :=
  if p.kind.isMultiOut then (p.outputs[o]?).join else if o = 0 then p.outputPort else none

/-- The EOFs the processor waits for on an input: one for each input of a `MultiIOneO`, else `input_count_`. -/
def need (p : Processor V) : Nat := if p.kind.isMultiIn then 1 else p.inputCount

/-- `before_work` does not throw: the ports of a fan-out or fan-in are all there, and a channel node has its channel. -/
def beforeWork (p : Processor V) : Bool :=
  match p.kind with
  | .dispatch n _ _ => p.outputs.length == n
  | .fork n _ => p.outputs.length == n
  | .concat n _ => p.inputs.length == n
  | .source (.channel _) => p.inputPort.isSome
  | .sink (.channel _) => p.outputPort.isSome
  | _ => true

end Processor

end Tunnel
