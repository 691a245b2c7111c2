import Tunnel.Run

/-!
# A pipeline inside a processor

`example/embed_pipeline.cc`: the `work()` of a `Transform` runs a pipeline that reads the transform's input port through
a `ChannelSource` and writes its output port through a `ChannelSink`. The queue of the input port has `n` writers
upstream; each of them writes its values and then EOF, and waits while the queue is full. Nobody but the `ChannelSource`
reads that queue.
-/

namespace Tunnel

variable {V : Type}

/-- The step is one from outside, on the channel. -/
def Event.touches (ch : UserChannel) : Event V → Bool
  | .send ch' _ => ch' = ch
  | .receive ch' => ch' = ch
  | _ => false

/-- The pipeline inside, and what each writer upstream has still to write. -/
structure Embedded (n : Nat) (V : Type) where
  sub : State V
  todo : Fin n → List (Option V)

/-- A step: a writer writes, or anything else happens. -/
inductive EmbeddedEvent (n : Nat) (V : Type) where
  | write (i : Fin n)
  | inside (e : Event V)

namespace Embedded

variable {n : Nat}

/-- The pipeline starts, the input queue is empty and nothing was written yet. -/
def start (p : Pipeline V) (input : UserChannel) (pre : UserChannel → List (Option V)) (tokens : Nat)
    (values : Fin n → List V) : Embedded n V where
  sub := p.start (Function.update pre input []) tokens
  todo i := (values i).map some ++ [none]

/-- The state a step leads to, if it can be taken. -/
def step (input : UserChannel) (m : Embedded n V) : EmbeddedEvent n V → Option (Embedded n V)
  | .write i =>
    match m.todo i with
    | [] => none
    | v :: rest => (m.sub.step (.send input v)).map (fun sub => { sub := sub, todo := Function.update m.todo i rest })
  | .inside e => if e.touches input then none else (m.sub.step e).map (fun sub => { m with sub := sub })

/-- `m'` is reached from `m` by steps. -/
def Reaches (input : UserChannel) (m m' : Embedded n V) :
    Prop := Relation.ReflTransGen (fun a b => ∃ e, a.step input e = some b) m m'

/-- A run along a list of steps. -/
def runAll (input : UserChannel) (m : Embedded n V) : List (EmbeddedEvent n V) → Option (Embedded n V)
  | [] => some m
  | e :: rest => (m.step input e).bind (fun m => runAll input m rest)

end Embedded

/-! ## Pipelines between two channels -/

/-- `SimpleTransform` and `NoOpTransform`. -/
inductive TransformKind.Plain : TransformKind V → Prop where
  | simple (transform : List V → V → V) : Plain (.simple transform)
  | noOp : Plain .noOp

/-- What a transform makes of a value, after the ones it was called with before. -/
def TransformKind.value : TransformKind V → List V → V → V
  | .simple f, before, v => f before v
  | _, _, v => v

/-- What a transform makes of one value after the other. -/
def TransformKind.mapFrom (k : TransformKind V) : List V → List V → List V
  | _, [] => []
  | before, v :: rest => k.value before v :: k.mapFrom (before ++ [v]) rest

/-- What transforms one behind the other make of values. -/
def through (ks : List (TransformKind V)) (values : List V) : List V := ks.foldl (fun l k => k.mapFrom [] l) values

/-- The pipeline leads from an input channel at `u` to an output channel at `z`, over `SimpleTransform`s and
`NoOpTransform`s. -/
structure Pipeline.Embeds (p : Pipeline V) (u z : Id) (input output : UserChannel) : Prop where
  source : ∃ n, p.nodes.get u = some n ∧ n.kind.isChannelSource = true ∧ n.inChan 0 = some (.user input)
  sink : ∃ n, p.nodes.get z = some n ∧ n.kind.isChannelSink = true ∧ n.outChan 0 = some (.user output)
  others : ∀ v n, p.nodes.get v = some n → v ≠ u → v ≠ z → ∃ k : TransformKind V, n.kind = .transform k ∧ k.Plain

/-- The transforms on the way from one processor to another. -/
inductive Pipeline.Line (p : Pipeline V) (u : Id) : Id → List (TransformKind V) → Prop where
  | nil : Line p u u []
  | snoc {v w : Id} {n : Processor V} {k : TransformKind V} {ks : List (TransformKind V)} (h : Line p u v ks)
      (he : p.Edge v w) (hw : p.nodes.get w = some n) (hk : n.kind = .transform k) : Line p u w (ks ++ [k])

end Tunnel
