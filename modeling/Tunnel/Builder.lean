import Tunnel.Lib.Attempt
import Tunnel.Pipeline

/-!
# The builder calls, statement by statement

`Pipeline` has what a builder call returns; here is what it does on the way. A call works on the pipeline in place and
may throw between two of its statements, and then the pipeline is as the statements before left it. Every queue the
calls make is noted, in the order in which they are made.

A processor that is not yet in `nodes_` belongs to the call, which hands it on from statement to statement.
-/

namespace Tunnel

open Lib

/-- What builder calls work on: the pipeline, and the queues made so far. -/
structure Site (V : Type) where
  pipeline : Pipeline V
  made : List Queue

/-- A builder call, or a piece of one. -/
abbrev Builder (V α : Type) := Attempt BuildError (Site V) α

namespace Builder

variable {V : Type}

/-! ## The pieces -/

/-- A statement that changes the pipeline. -/
def change (f : Pipeline V → Pipeline V) :
    Builder V Unit := Attempt.modify (fun s => { s with pipeline := f s.pipeline })

def newNodeCheck (id : Id) : Builder V Unit := do
  let s ← Attempt.get
  if id ∈ s.pipeline.nodes.keys then Attempt.throw .duplicateNode

def leafCheck (leaf : Id) : Builder V Unit := do
  let s ← Attempt.get
  if leaf ∈ s.pipeline.leaves then pure () else Attempt.throw .invalidLeaf

def leavesCheck : List Id → Builder V Unit
  | [] => pure ()
  | each :: rest => do
    leafCheck each
    leavesCheck rest

/-- `assert(nodes_.find(id) != nodes_.end())`. -/
def assertNode (id : Id) : Builder V Unit := do
  let s ← Attempt.get
  if id ∉ s.pipeline.nodes.keys then Attempt.throw .assertFailed

/-- `std::make_shared<BoundedQueue<..>>(option_.channel_size)`. -/
def makeQueue (reader : Id) (port : Nat) : Builder V Queue := do
  let s ← Attempt.get
  let queue := Queue.link reader port s.pipeline.option.channelSize
  Attempt.modify (fun s => { s with made := s.made ++ [queue] })
  pure queue

def addEdge (u v : Id) : Builder V Unit := change (fun p => { p with dags := Pipeline.addEdge p.dags u v })

def insertNode (id : Id) (node : Processor V) :
    Builder V Unit := change (fun p => { p with nodes := p.nodes.insert id node })

def insertLeaf (id : Id) : Builder V Unit := change (fun p => { p with leaves := insert id p.leaves })

def eraseLeaf (id : Id) : Builder V Unit := change (fun p => { p with leaves := p.leaves.erase id })

def setOutputPort (id : Id) (queue : Queue) : Builder V Unit :=
  change (fun p => { p with nodes := p.nodes.modify id (·.setOutputPort queue) })

/-- `connect(input, output, queue)`, where the output is not in the pipeline yet. -/
def connect (input : Id) (output : Processor V) (queue : Queue) : Builder V (Processor V) := do
  setOutputPort input queue
  pure (output.setInputPort queue)

/-! ## The calls -/

def setAbortChannel (ch : Option UserChannel) : Builder V Unit := change (·.setAbortChannel ch)

def addSource (id : Id) (name : Name) (k : SourceKind V) : Builder V Id := do
  newNodeCheck id
  insertNode id (.ofSource name k)
  insertLeaf id
  change (fun p => { p with sources := p.sources ++ [id] })
  pure id

def addTransform (leaf id : Id) (name : Name) (k : TransformKind V) : Builder V Id := do
  newNodeCheck id
  leafCheck leaf
  assertNode leaf
  let queue ← makeQueue id 0
  let node ← connect leaf (.ofTransform name k) queue
  addEdge leaf id
  eraseLeaf leaf
  insertLeaf id
  insertNode id node
  pure id

/-- The loop of `AddTransform(creater)`, from its `n`-th call of the user's `creater` on. -/
def addTransformsLoop (create : Nat → Except String (NewTransform V)) :
    List Id → Nat → Finset Id → Builder V (Finset Id)
  | [], _, newLeaves => pure newLeaves
  | each :: rest, n, newLeaves => do
    let t ← Attempt.lift ((create n).mapError .creater)
    newNodeCheck t.id
    assertNode each
    let queue ← makeQueue t.id 0
    let node ← connect each (.ofTransform t.name t.kind) queue
    addEdge each t.id
    insertNode t.id node
    addTransformsLoop create rest (n + 1) (insert t.id newLeaves)

def addTransforms (order : IdSet) (create : Nat → Except String (NewTransform V)) : Builder V (Finset Id) := do
  let newLeaves ← addTransformsLoop create order.elems 0 ∅
  change (fun p => { p with leaves := newLeaves })
  pure newLeaves

def mergeTo (insertToLeaves : Bool) (id : Id) (node : Processor V) (leaves : IdSet) : Builder V Id := do
  newNodeCheck id
  leavesCheck leaves.elems
  let queue ← makeQueue id 0
  let node ← leaves.elems.foldlM (fun node each => do
    let node ← connect each node queue
    addEdge each id
    eraseLeaf each
    pure node) node
  insertNode id node
  if insertToLeaves then insertLeaf id
  pure id

def merge (insertToLeaves : Bool) (id : Id) (node : Processor V) (order : IdSet) : Builder V Id := do
  let s ← Attempt.get
  if s.pipeline.leaves = ∅ then Attempt.throw .emptyLeaves
  newNodeCheck id
  let queue ← makeQueue id 0
  let node ← order.elems.foldlM (fun node each => do
    let node ← connect each node queue
    addEdge each id
    pure node) node
  change (fun p => { p with leaves := ∅ })
  insertNode id node
  if insertToLeaves then insertLeaf id
  pure id

def setSink (id : Id) (name : Name) (k : SinkKind) (order : IdSet) : Builder V Id := do
  let id ← merge false id (.ofSink name k) order
  change (fun p => { p with sinks := p.sinks ++ [id] })
  pure id

def setSinkTo (id : Id) (name : Name) (k : SinkKind) (leaves : IdSet) : Builder V Id := do
  let id ← mergeTo false id (.ofSink name k) leaves
  change (fun p => { p with sinks := p.sinks ++ [id] })
  pure id

/-- What `DispatchFrom` and `ForkFrom` do with their node, which has `n` outputs. -/
def fanOut (leaf id : Id) (node : Processor V) (n : Nat) (noopId : Nat → Id) : Builder V (Finset Id) := do
  let (node, result) ← (List.range n).foldlM (fun (node, result) i => do
    let queue ← makeQueue (noopId i) 0
    addEdge id (noopId i)
    insertNode (noopId i) (Processor.noOp.setInputPort queue)
    pure (node.addOutputPort queue, insert (noopId i) result)) (node, ∅)
  let queue ← makeQueue id 0
  let node ← connect leaf node queue
  addEdge leaf id
  eraseLeaf leaf
  change (fun p => { p with leaves := p.leaves ∪ result })
  insertNode id node
  pure result

def dispatchFrom (leaf id : Id) (name : Name) (n : Nat) (pos : 0 < n) (d : List V → V → Nat) (noopId : Nat → Id) :
    Builder V (Finset Id) := do
  leafCheck leaf
  fanOut leaf id { name := name, kind := .dispatch n pos d } n noopId

def forkFrom (leaf : Id) (n : Nat) (id : Id) (noopId : Nat → Id) : Builder V (Finset Id) := do
  leafCheck leaf
  if pos : 0 < n then fanOut leaf id { name := "fork", kind := .fork n pos } n noopId else Attempt.throw .assertFailed

def concatFrom (leaves : List Id) (id : Id) : Builder V Id := do
  leavesCheck leaves
  if pos : 0 < leaves.length then
    let node ← leaves.foldlM (fun (node : Processor V) each => do
      let queue ← makeQueue id node.inputs.length
      setOutputPort each queue
      addEdge each id
      eraseLeaf each
      pure (node.addInputPort queue)) { name := "concat", kind := .concat leaves.length pos }
    insertLeaf id
    insertNode id node
    pure id
  else Attempt.throw .assertFailed

/-- `MergePipeline(left, right)`, on the two pipelines it is given. Nothing behind its checks throws; from there on the
operands are moved from. -/
def mergePipeline (noopId : Nat → Id) : Attempt BuildError (Pipeline V × Pipeline V) (Pipeline V) := do
  let (left, right) ← Attempt.get
  if !left.isCompleted || !right.isCompleted then
    Attempt.throw .incompletePipeline
  else if left.getProcessorSize = 0 then
    Attempt.modify (fun s => (s.1, {}))
    pure right
  else if right.getProcessorSize = 0 then
    Attempt.modify (fun s => ({}, s.2))
    pure left
  else if left.sinks.length ≠ right.sources.length then
    Attempt.throw .sizeMismatch
  else
    Attempt.modify (fun _ => ({}, {}))
    Attempt.lift (left.mergePipeline right noopId)

end Builder

/-- A builder call, as it works on the pipeline. -/
def Call.exec {V : Type} : Call V → Builder V Unit
  | .setAbortChannel ch => Builder.setAbortChannel ch
  | .addSource id name k => do let _ ← Builder.addSource id name k
  | .addTransform leaf id name k => do let _ ← Builder.addTransform leaf id name k
  | .addTransforms order create => do let _ ← Builder.addTransforms order create
  | .setSink id name k order => do let _ ← Builder.setSink id name k order
  | .setSinkTo id name k leaves => do let _ ← Builder.setSinkTo id name k leaves
  | .mergeTransformTo id name k leaves => do let _ ← Builder.mergeTo true id (.ofTransform name k) leaves
  | .mergeTo id leaves => do let _ ← Builder.mergeTo true id .noOp leaves
  | .mergeTransform id name k order => do let _ ← Builder.merge true id (.ofTransform name k) order
  | .merge id order => do let _ ← Builder.merge true id .noOp order
  | .dispatchFrom leaf id name n pos d noopId => do let _ ← Builder.dispatchFrom leaf id name n pos d noopId
  | .concatFrom leaves id => do let _ ← Builder.concatFrom leaves id
  | .forkFrom leaf n id noopId => do let _ ← Builder.forkFrom leaf n id noopId

/-! ## Pipelines that calls and merges make -/

/-- How a pipeline came about. A call that throws may be caught, and others made after it. -/
inductive Recipe (V : Type) where
  | new (option : PipelineOption)
  | call (r : Recipe V) (c : Call V)
  | mergePipeline (l r : Recipe V) (noopId : Nat → Id)

namespace Recipe

variable {V : Type}

/-- What a recipe makes, unless one of its merges throws. -/
def site : Recipe V → Except BuildError (Site V)
  | .new option => .ok ⟨.new option, []⟩
  | .call r c => do
    let s ← r.site
    .ok (c.exec s).2
  | .mergePipeline l r noopId => do
    let s ← l.site
    let t ← r.site
    let p ← s.pipeline.mergePipeline t.pipeline noopId
    .ok ⟨p, s.made ++ t.made⟩

/-- The options its pipelines were made with. -/
def options : Recipe V → List PipelineOption
  | .new option => [option]
  | .call r _ => r.options
  | .mergePipeline l r _ => l.options ++ r.options

/-- Its loops over `leaves_` go through `leaves_`. -/
def Enumerates : Recipe V → Prop
  | .new _ => True
  | .call r c => r.Enumerates ∧ ∀ s, r.site = .ok s → c.Enumerates s.pipeline
  | .mergePipeline l r _ => l.Enumerates ∧ r.Enumerates

end Recipe

end Tunnel
