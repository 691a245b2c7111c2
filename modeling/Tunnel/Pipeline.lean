import Mathlib.Data.Finset.Union
import Tunnel.Lib.PMap
import Tunnel.Processor

/-!
# Building a pipeline

The builder calls of `tunnel/pipeline.h`, each as the source computes it: the checks in their order, the loops, the maps
`nodes_` and `dags_` and the set `leaves_`. A call that throws is an `error`; a failed `assert` is one too, since such a
call does not return either. The ids of the processors a call makes itself (`Concat`, `Fork`, the `NoOpTransform`s) are
arguments: they are whatever `GenerateId` returned.

`std::unordered_set` has an iteration order that nobody may rely on. A set that is only asked for its elements is a
`Finset`; a set that a loop goes through is an `IdSet`, its elements in the order of the loop, and the calls that loop
over `leaves_` take that order as an argument (`Call.Enumerates`).
-/

namespace Tunnel

open Lib

/-- `default_channel_size`. -/
def defaultChannelSize : Nat := 1

structure PipelineOption where
  bindAbortChannel : Bool := false
  channelSize : Nat := defaultChannelSize
  name : Name := "default"

/-- What keeps a builder call from returning. -/
inductive BuildError where
  | duplicateNode
  | invalidLeaf
  | emptyLeaves
  | incompletePipeline
  | sizeMismatch
  | creater (what : String)
  | assertFailed
  | nullProcessor
  deriving DecidableEq, Repr

/-- The message of the exception; a failed assertion and a null pointer end the process and have none. -/
def BuildError.what : BuildError → Option String
  | .duplicateNode => some "add duplicate node to pipeline"
  | .invalidLeaf => some "invalid leaf node for pipeline"
  | .emptyLeaves => some "can not merge for empty_leaves pipeline"
  | .incompletePipeline => some "can only merge two completed pipeline"
  | .sizeMismatch => some "the number of sources and sinks in the merged pipeline is not equal"
  | .creater w => some w
  | .assertFailed => none
  | .nullProcessor => none

/-- A set of ids in the order a loop goes through it. -/
structure IdSet where
  elems : List Id
  nodup : elems.Nodup

/-- The set of one id. -/
def IdSet.single (id : Id) : IdSet := ⟨[id], List.nodup_singleton id⟩

/-- A transform the user's `creater` returns: a fresh object with its id. -/
structure NewTransform (V : Type) where
  id : Id
  name : Name
  kind : TransformKind V

structure Pipeline (V : Type) where
  option : PipelineOption := {}
  nodes : PMap Id (Processor V) := .empty
  leaves : Finset Id := ∅
  dags : PMap Id (Finset Id) := .empty
  sources : List Id := []
  sinks : List Id := []
  abortChannel : Option UserChannel := none

namespace Pipeline

variable {V : Type}

/-- `Pipeline(option)`. -/
def new (option : PipelineOption) : Pipeline V := { option := option }

def isCompleted (p : Pipeline V) : Bool := p.leaves = ∅

def getProcessorSize (p : Pipeline V) : Nat := p.nodes.keys.card

def isSource (p : Pipeline V) (id : Id) : Bool := id ∈ p.sources

def isSink (p : Pipeline V) (id : Id) : Bool := id ∈ p.sinks

/-- The successors `dags_` holds for an id, none when it holds no entry. -/
def succs (p : Pipeline V) (u : Id) : Finset Id := (p.dags.get u).getD ∅

/-- An edge of `dags_`. -/
def Edge (p : Pipeline V) (u v : Id) : Prop := v ∈ p.succs u

instance (p : Pipeline V) (u v : Id) : Decidable (p.Edge u v) := inferInstanceAs (Decidable (v ∈ p.succs u))

/-- `add_edge`: `dags_[from].insert(to)`. -/
def addEdge (dags : PMap Id (Finset Id)) (u v : Id) : PMap Id (Finset Id) :=
  dags.assign u (insert v ((dags.get u).getD ∅))

def newNodeCheck (p : Pipeline V) (id : Id) : Except BuildError Unit :=
  if id ∈ p.nodes.keys then .error .duplicateNode else .ok ()

def leafCheck (p : Pipeline V) (leaf : Id) : Except BuildError Unit :=
  if leaf ∈ p.leaves then .ok () else .error .invalidLeaf

/-- `leaves_check`, over a set or a vector: the elements one by one. -/
def leavesCheck (p : Pipeline V) : List Id → Except BuildError Unit
  | [] => .ok ()
  | each :: rest => do
    p.leafCheck each
    p.leavesCheck rest

/-- `SetAbortChannel`. -/
def setAbortChannel (p : Pipeline V) (ch : Option UserChannel) : Pipeline V := { p with abortChannel := ch }

/-- `AddSource`. -/
def addSource (p : Pipeline V) (id : Id) (name : Name) (k : SourceKind V) : Except BuildError (Pipeline V × Id) := do
  p.newNodeCheck id
  .ok ({ p with
    nodes := p.nodes.insert id (.ofSource name k), leaves := insert id p.leaves, sources := p.sources ++ [id] }, id)

/-- `connect` of a node of the pipeline to a new one, and the edge: the node's output port and the new one's input port
are set to the queue. -/
def connect (id : Id) (queue : Queue) (st : Pipeline V × Processor V) (each : Id) : Pipeline V × Processor V :=
  ({ st.1 with nodes := st.1.nodes.modify each (·.setOutputPort queue), dags := addEdge st.1.dags each id },
    st.2.setInputPort queue)

/-- `AddTransform(leaf_id, transform)`. -/
def addTransform (p : Pipeline V) (leaf id : Id) (name : Name) (k : TransformKind V) :
    Except BuildError (Pipeline V × Id) := do
  p.newNodeCheck id
  p.leafCheck leaf
  if leaf ∉ p.nodes.keys then .error .assertFailed else
  let (p, node) := connect id (.link id 0 p.option.channelSize) (p, .ofTransform name k) leaf
  .ok ({ p with leaves := insert id (p.leaves.erase leaf), nodes := p.nodes.insert id node }, id)

/-- The loop of `AddTransform(creater)`, from its `n`-th call of the user's `creater` on. -/
def addTransformsLoop (create : Nat → Except String (NewTransform V)) :
    List Id → Nat → Pipeline V × Finset Id → Except BuildError (Pipeline V × Finset Id)
  | [], _, st => .ok st
  | each :: rest, n, st => do
    let t ← (create n).mapError .creater
    st.1.newNodeCheck t.id
    if each ∉ st.1.nodes.keys then .error .assertFailed else
    let (p, node) := connect t.id (.link t.id 0 st.1.option.channelSize) (st.1, .ofTransform t.name t.kind) each
    addTransformsLoop create rest (n + 1) ({ p with nodes := p.nodes.insert t.id node }, insert t.id st.2)

/-- `AddTransform(creater)`: one new transform behind every leaf, in the order the loop goes through `leaves_`. -/
def addTransforms (p : Pipeline V) (order : IdSet) (create : Nat → Except String (NewTransform V)) :
    Except BuildError (Pipeline V × Finset Id) := do
  let (p, newLeaves) ← addTransformsLoop create order.elems 0 (p, ∅)
  .ok ({ p with leaves := newLeaves }, newLeaves)

/-- `merge_to<insert_to_leaves>`: one new node behind the leaves named, on one queue. -/
def mergeTo (insertToLeaves : Bool) (p : Pipeline V) (id : Id) (node : Processor V) (leaves : IdSet) :
    Except BuildError (Pipeline V × Id) := do
  p.newNodeCheck id
  p.leavesCheck leaves.elems
  let queue := Queue.link id 0 p.option.channelSize
  let (p, node) := leaves.elems.foldl (fun st each =>
    let (p, node) := connect id queue st each
    ({ p with leaves := p.leaves.erase each }, node)) (p, node)
  .ok ({ p with
    nodes := p.nodes.insert id node, leaves := if insertToLeaves then insert id p.leaves else p.leaves }, id)

/-- `merge<insert_to_leaves>`: one new node behind all leaves, on one queue. -/
def merge (insertToLeaves : Bool) (p : Pipeline V) (id : Id) (node : Processor V) (order : IdSet) :
    Except BuildError (Pipeline V × Id) := do
  if p.leaves = ∅ then .error .emptyLeaves else
  p.newNodeCheck id
  let queue := Queue.link id 0 p.option.channelSize
  let (p, node) := order.elems.foldl (connect id queue) (p, node)
  .ok ({ p with
    nodes := p.nodes.insert id node, leaves := if insertToLeaves then insert id ∅ else ∅ }, id)

/-- `SetSink(sink)`. -/
def setSink (p : Pipeline V) (id : Id) (name : Name) (k : SinkKind) (order : IdSet) :
    Except BuildError (Pipeline V × Id) := do
  let (p, id) ← merge false p id (.ofSink name k) order
  .ok ({ p with sinks := p.sinks ++ [id] }, id)

/-- `SetSink(sink, leaves)`. -/
def setSinkTo (p : Pipeline V) (id : Id) (name : Name) (k : SinkKind) (leaves : IdSet) :
    Except BuildError (Pipeline V × Id) := do
  let (p, id) ← mergeTo false p id (.ofSink name k) leaves
  .ok ({ p with sinks := p.sinks ++ [id] }, id)

/-- What the fan-out loop of `DispatchFrom` and `ForkFrom` carries. -/
structure FanOut (V : Type) where
  node : Processor V
  nodes : PMap Id (Processor V)
  dags : PMap Id (Finset Id)
  result : Finset Id

/-- One branch of a fan-out: a queue from the node to a `NoOpTransform` of its own. -/
def fanOutStep (id : Id) (noopId : Nat → Id) (size : Nat) (st : FanOut V) (i : Nat) : FanOut V :=
  let queue := Queue.link (noopId i) 0 size
  { node := st.node.addOutputPort queue
    dags := addEdge st.dags id (noopId i)
    result := insert (noopId i) st.result
    nodes := st.nodes.insert (noopId i) (Processor.noOp.setInputPort queue) }

/-- What `DispatchFrom` and `ForkFrom` do with their node: its branches first, then the queue from the leaf to it. -/
def fanOut (p : Pipeline V) (leaf id : Id) (node : Processor V) (n : Nat) (noopId : Nat → Id) :
    Pipeline V × Finset Id :=
  let st := (List.range n).foldl (fanOutStep id noopId p.option.channelSize) ⟨node, p.nodes, p.dags, ∅⟩
  let (q, node) := connect id (.link id 0 p.option.channelSize) ({ p with nodes := st.nodes, dags := st.dags },
    st.node) leaf
  ({ q with leaves := q.leaves.erase leaf ∪ st.result, nodes := q.nodes.insert id node }, st.result)

/-- `DispatchFrom`. -/
def dispatchFrom (p : Pipeline V) (leaf id : Id) (name : Name) (n : Nat) (pos : 0 < n) (d : List V → V → Nat)
    (noopId : Nat → Id) : Except BuildError (Pipeline V × Finset Id) := do
  p.leafCheck leaf
  .ok (p.fanOut leaf id { name := name, kind := .dispatch n pos d } n noopId)

/-- `ForkFrom`. -/
def forkFrom (p : Pipeline V) (leaf : Id) (n : Nat) (id : Id) (noopId : Nat → Id) :
    Except BuildError (Pipeline V × Finset Id) := do
  p.leafCheck leaf
  if pos : 0 < n then .ok (p.fanOut leaf id { name := "fork", kind := .fork n pos } n noopId) else .error .assertFailed

/-- One input of a new `Concat`: `connect(Processor, MultiIOneO)` on a queue of its own, the edge, and the leaf is one
no more. -/
def concatStep (id : Id) (size : Nat) (st : Pipeline V × Processor V) (each : Id) : Pipeline V × Processor V :=
  let queue := Queue.link id st.2.inputs.length size
  ({ st.1 with
      nodes := st.1.nodes.modify each (·.setOutputPort queue)
      dags := addEdge st.1.dags each id
      leaves := st.1.leaves.erase each },
    st.2.addInputPort queue)

/-- `ConcatFrom`. -/
def concatFrom (p : Pipeline V) (leaves : List Id) (id : Id) : Except BuildError (Pipeline V × Id) := do
  p.leavesCheck leaves
  if pos : 0 < leaves.length then
    let (p, node) := leaves.foldl (concatStep id p.option.channelSize)
      (p, { name := "concat", kind := .concat leaves.length pos })
    .ok ({ p with leaves := insert id p.leaves, nodes := p.nodes.insert id node }, id)
  else .error .assertFailed

/-- The output ports in the pipeline that hold a queue, each a processor and the number of the port. -/
def writers (p : Pipeline V) (q : Queue) : Finset (Id × Nat) :=
  p.nodes.keys.biUnion (fun u => match p.nodes.get u with
    | some n =>
      (((List.range (n.outputs.length + 1)).filter (fun o => n.outChan o = some q)).toFinset).image (fun o => (u, o))
    | none => ∅)

/-! ## Merging two pipelines -/

/-- `ReplaceSinkIdInDags`: in every adjacency set the old sink id gives way to the new one. -/
def replaceSinkIdInDags (dags : PMap Id (Finset Id)) (ids : List (Id × Id)) : PMap Id (Finset Id) :=
  ids.foldl (fun d x => d.mapVals (fun _ s => if x.1 ∈ s then insert x.2 (s.erase x.1) else s)) dags

/-- One round of `ReplaceSourceIdInDags`: the adjacency set of the old id moves to `add_dag` under the new one, and
everything in `add_dag` is inserted into `dags`. `insert` keeps what is there and takes (leaves empty) what it inserts,
so that from the second round on `add_dag` holds moved-from sets. -/
def replaceSourceStep (st : PMap Id (Finset Id) × PMap Id (Finset Id)) (x : Id × Id) :
    PMap Id (Finset Id) × PMap Id (Finset Id) :=
  let (dags, addDag) := match st.1.get x.1 with
    | some s => (st.1.erase x.1, st.2.insert x.2 s)
    | none => st
  (dags.union addDag, addDag.mapVals (fun k s => if k ∈ dags.keys then s else ∅))

/-- `ReplaceSourceIdInDags`. -/
def replaceSourceIdInDags (dags : PMap Id (Finset Id)) (ids : List (Id × Id)) : PMap Id (Finset Id) :=
  (ids.foldl replaceSourceStep (dags, .empty)).1

/-- `NoOpTransform::MergeSinkAndSource`. -/
def mergeSinkAndSource (sink source : Processor V) : Processor V :=
  { Processor.noOp with
    inputCount := sink.inputCount, inputPort := sink.inputPort, outputPort := source.outputPort }

/-- The loop of `MergePipeline` that turns every pair of a sink and a source into a `NoOpTransform`. -/
def mergeNoops (left right : Pipeline V) : List (Id × Id) → Except BuildError (List (Processor V))
  | [] => .ok []
  | (s, r) :: rest =>
    match left.nodes.get s, right.nodes.get r with
    | some sink, some source => do
      let noops ← mergeNoops left right rest
      .ok (mergeSinkAndSource sink source :: noops)
    | _, _ => .error .nullProcessor

/-- `MergePipeline(left, right)`; the `i`-th `NoOpTransform` it makes gets the id `noopId i`. -/
def mergePipeline (left right : Pipeline V) (noopId : Nat → Id) : Except BuildError (Pipeline V) := do
  if !left.isCompleted || !right.isCompleted then .error .incompletePipeline else
  if left.getProcessorSize = 0 then .ok right else
  if right.getProcessorSize = 0 then .ok left else
  if left.sinks.length ≠ right.sources.length then .error .sizeMismatch else
  let noops ← mergeNoops left right (left.sinks.zip right.sources)
  let noopIds := (List.range left.sinks.length).map noopId
  .ok {
    option := {
      name := left.option.name ++ "-merge-" ++ right.option.name
      bindAbortChannel := left.option.bindAbortChannel && right.option.bindAbortChannel
      channelSize := 0 }
    nodes := (noopIds.zip noops).foldl (fun m x => m.insert x.1 x.2)
      ((left.nodes.filter (fun id => !left.isSink id)).union (right.nodes.filter (fun id => !right.isSource id)))
    leaves := ∅
    dags := (replaceSinkIdInDags left.dags (left.sinks.zip noopIds)).union
      (replaceSourceIdInDags right.dags (right.sources.zip noopIds))
    sources := left.sources
    sinks := right.sinks }

/-- What keeps `Run` from starting the processors. -/
inductive RunError where
  | incompleted
  | empty
  | noExecutor
  deriving DecidableEq, Repr

def RunError.what : RunError → String
  | .incompleted => "try to run incompleted pipeline"
  | .empty => "try to run empty pipeline"
  | .noExecutor => "pipeline can not run without executor"

/-- The checks of `Run`, before it starts the processors on the executor it was awaited on. -/
def runChecks (p : Pipeline V) (hasExecutor : Bool) : Except RunError Unit :=
  if p.leaves ≠ ∅ then .error .incompleted
  else if p.nodes.keys = ∅ then .error .empty
  else if !hasExecutor then .error .noExecutor
  else .ok ()

end Pipeline

/-! ## Sequences of builder calls -/

/-- A builder call with its arguments, with the ids `GenerateId` gave the processors that the call makes. -/
inductive Call (V : Type) where
  | setAbortChannel (channel : Option UserChannel)
  | addSource (id : Id) (name : Name) (kind : SourceKind V)
  | addTransform (leaf id : Id) (name : Name) (kind : TransformKind V)
  | addTransforms (order : IdSet) (create : Nat → Except String (NewTransform V))
  | setSink (id : Id) (name : Name) (kind : SinkKind) (order : IdSet)
  | setSinkTo (id : Id) (name : Name) (kind : SinkKind) (leaves : IdSet)
  | mergeTransformTo (id : Id) (name : Name) (kind : TransformKind V) (leaves : IdSet)
  | mergeTo (id : Id) (leaves : IdSet)
  | mergeTransform (id : Id) (name : Name) (kind : TransformKind V) (order : IdSet)
  | merge (id : Id) (order : IdSet)
  | dispatchFrom (leaf id : Id) (name : Name) (n : Nat) (pos : 0 < n) (dispatch : List V → V → Nat) (noopId : Nat → Id)
  | concatFrom (leaves : List Id) (id : Id)
  | forkFrom (leaf : Id) (n : Nat) (id : Id) (noopId : Nat → Id)

namespace Call

variable {V : Type}

/-- The pipeline a call leaves when it returns. -/
def run (p : Pipeline V) : Call V → Except BuildError (Pipeline V)
  | .setAbortChannel ch => .ok (p.setAbortChannel ch)
  | .addSource id name k => (·.1) <$> p.addSource id name k
  | .addTransform leaf id name k => (·.1) <$> p.addTransform leaf id name k
  | .addTransforms order create => (·.1) <$> p.addTransforms order create
  | .setSink id name k order => (·.1) <$> p.setSink id name k order
  | .setSinkTo id name k leaves => (·.1) <$> p.setSinkTo id name k leaves
  | .mergeTransformTo id name k leaves => (·.1) <$> Pipeline.mergeTo true p id (.ofTransform name k) leaves
  | .mergeTo id leaves => (·.1) <$> Pipeline.mergeTo true p id .noOp leaves
  | .mergeTransform id name k order => (·.1) <$> Pipeline.merge true p id (.ofTransform name k) order
  | .merge id order => (·.1) <$> Pipeline.merge true p id .noOp order
  | .dispatchFrom leaf id name n pos d noopId => (·.1) <$> p.dispatchFrom leaf id name n pos d noopId
  | .concatFrom leaves id => (·.1) <$> p.concatFrom leaves id
  | .forkFrom leaf n id noopId => (·.1) <$> p.forkFrom leaf n id noopId

/-- The ids of the processors a call brings into the pipeline. -/
def ids : Call V → Finset Id
  | .setAbortChannel _ => ∅
  | .addSource id _ _ => {id}
  | .addTransform _ id _ _ => {id}
  | .addTransforms order create =>
    (List.range order.elems.length).toFinset.biUnion (fun n => match create n with
      | .ok t => {t.id}
      | .error _ => ∅)
  | .setSink id _ _ _ => {id}
  | .setSinkTo id _ _ _ => {id}
  | .mergeTransformTo id _ _ _ => {id}
  | .mergeTo id _ => {id}
  | .mergeTransform id _ _ _ => {id}
  | .merge id _ => {id}
  | .dispatchFrom _ id _ n _ _ noopId => insert id ((List.range n).map noopId).toFinset
  | .concatFrom _ id => {id}
  | .forkFrom _ n id noopId => insert id ((List.range n).map noopId).toFinset

/-- The processors of a fan-out have ids of their own. The other calls bring one processor, or check
(`AddTransform(creater)`). -/
def DistinctIds : Call V → Prop
  | .dispatchFrom _ id _ n _ _ noopId => (id :: (List.range n).map noopId).Nodup
  | .forkFrom _ n id noopId => (id :: (List.range n).map noopId).Nodup
  | _ => True

/-- The loops over `leaves_` go through `leaves_`. -/
def Enumerates (p : Pipeline V) : Call V → Prop
  | .addTransforms order _ => order.elems.toFinset = p.leaves
  | .setSink _ _ _ order => order.elems.toFinset = p.leaves
  | .mergeTransform _ _ _ order => order.elems.toFinset = p.leaves
  | .merge _ order => order.elems.toFinset = p.leaves
  | _ => True

/-- The vector of a `ConcatFrom` names no leaf twice. -/
def NoRepeat : Call V → Prop
  | .concatFrom leaves _ => leaves.Nodup
  | _ => True

/-- The set of leaves a `SetSink` or a `Merge` is given is not empty. -/
def NonemptyLeaves : Call V → Prop
  | .setSinkTo _ _ _ leaves => leaves.elems ≠ []
  | .mergeTransformTo _ _ _ leaves => leaves.elems ≠ []
  | .mergeTo _ leaves => leaves.elems ≠ []
  | _ => True

/-- The leaf sets of a call are not empty and name no leaf twice. -/
def Proper (c : Call V) : Prop := c.NoRepeat ∧ c.NonemptyLeaves

instance (c : Call V) : Decidable c.DistinctIds := by
  cases c <;> dsimp only [DistinctIds] <;> infer_instance

instance (p : Pipeline V) (c : Call V) : Decidable (c.Enumerates p) := by
  cases c <;> dsimp only [Enumerates] <;> infer_instance

instance : DecidablePred (NoRepeat (V := V)) := by
  intro c
  cases c <;> dsimp only [NoRepeat] <;> infer_instance

instance : DecidablePred (NonemptyLeaves (V := V)) := by
  intro c
  cases c <;> dsimp only [NonemptyLeaves] <;> infer_instance

instance : DecidablePred (Proper (V := V)) := fun c => inferInstanceAs (Decidable (c.NoRepeat ∧ c.NonemptyLeaves))

end Call

/-- A pipeline that builder calls reach, each of which returned and satisfies `P`, with the ids handed out to its
processors so far: the ids `GenerateId` gives the processors of a call are new, and those of two pipelines that are
merged have none in common. -/
inductive Built {V : Type} (P : Call V → Prop) : Pipeline V → Finset Id → Prop where
  | new (option : PipelineOption) : Built P (.new option) ∅
  | call {p p' : Pipeline V} {U : Finset Id} (c : Call V) :
      Built P p U → P c → Disjoint c.ids U → c.DistinctIds → c.Enumerates p → c.run p = .ok p' → Built P p' (U ∪ c.ids)
  | mergePipeline {l r p : Pipeline V} {UL UR : Finset Id} (noopId : Nat → Id) :
      Built P l UL → Built P r UR → Disjoint UL UR → ((List.range l.sinks.length).map noopId).Nodup →
      (∀ i < l.sinks.length, noopId i ∉ UL ∪ UR) → l.mergePipeline r noopId = .ok p →
      Built P p (UL ∪ UR ∪ ((List.range l.sinks.length).map noopId).toFinset)

/-- Builder calls in turn, from a pipeline and the ids handed out so far; nothing if one of them throws or is not as
`Built` wants it. -/
def build {V : Type} (P : Call V → Prop) [DecidablePred P] :
    List (Call V) → Pipeline V × Finset Id → Option (Pipeline V × Finset Id)
  | [], st => some st
  | c :: rest, st =>
    if P c ∧ Disjoint c.ids st.2 ∧ c.DistinctIds ∧ c.Enumerates st.1 then
      match c.run st.1 with
      | .ok p => build P rest (p, st.2 ∪ c.ids)
      | .error _ => none
    else none

/-- The first call returned, and the others went through after it. -/
theorem build_cons {V : Type} {P : Call V → Prop} [DecidablePred P] {c : Call V} {cs : List (Call V)}
    {st st' : Pipeline V × Finset Id} (h : build P (c :: cs) st = some st') :
    ∃ p, P c ∧ Disjoint c.ids st.2 ∧ c.DistinctIds ∧ c.Enumerates st.1 ∧ c.run st.1 = .ok p ∧
      build P cs (p, st.2 ∪ c.ids) = some st' := by
  unfold build at h
  split at h
  · rename_i hc
    obtain ⟨hP, hdis, hid, he⟩ := hc
    split at h
    · rename_i p hp
      exact ⟨p, hP, hdis, hid, he, hp, h⟩
    · cases h
  · cases h

theorem build_from {V : Type} {P : Call V → Prop} [DecidablePred P] (cs : List (Call V)) :
    ∀ {st st' : Pipeline V × Finset Id}, Built P st.1 st.2 → build P cs st = some st' → Built P st'.1 st'.2 := by
  induction cs with
  | nil =>
    intro st st' h hb
    cases hb
    exact h
  | cons c rest ih =>
    intro st st' h hb
    obtain ⟨p, hP, hdis, hid, he, hp, hb⟩ := build_cons hb
    exact ih (.call c h hP hdis hid he hp) hb

/-- The pipeline that calls make of a new one, with the ids of its processors; the new one, if they do not all go
through. -/
def Pipeline.ofCalls {V : Type} (P : Call V → Prop) [DecidablePred P] (option : PipelineOption) (cs : List (Call V)) :
    Pipeline V × Finset Id :=
  (build P cs (.new option, ∅)).getD (.new option, ∅)

theorem built_ofCalls {V : Type} (P : Call V → Prop) [DecidablePred P] (option : PipelineOption) (cs : List (Call V)) :
    Built P (Pipeline.ofCalls P option cs).1 (Pipeline.ofCalls P option cs).2 := by
  unfold Pipeline.ofCalls
  cases h : build P cs (.new option, ∅) with
  | none => exact .new option
  | some st => exact build_from cs (.new option) h

end Tunnel
