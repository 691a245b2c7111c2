import Tunnel.Builder
import Tunnel.Lemmas.Calls

/-!
# What the statements of a builder call come to

Every call but `AddTransform(creater)` checks first and changes the pipeline afterwards: it throws on a pipeline as it
was, or it leaves what `Call.run` says and has made its queues (`exec_eq`). `AddTransform(creater)` checks in every
round of its loop.
-/

namespace Tunnel

open Lib

variable {V α : Type}

/-- What a call leaves that is the function `r`, makes the queues `qs` and does nothing when it throws. -/
def Site.outcome (s : Site V) (qs : List Queue) (r : Except BuildError (Pipeline V × α)) :
    Except BuildError α × Site V :=
  match r with
  | .ok (p, a) => (.ok a, ⟨p, s.made ++ qs⟩)
  | .error e => (.error e, s)

namespace Builder

/-- The checks change nothing. -/
@[simp] theorem newNodeCheck_apply (id : Id) (s : Site V) : newNodeCheck id s = (s.pipeline.newNodeCheck id, s) := by
  unfold newNodeCheck Pipeline.newNodeCheck
  rw [Attempt.get_bind_apply]
  split <;> rfl

@[simp] theorem leafCheck_apply (leaf : Id) (s : Site V) : leafCheck leaf s = (s.pipeline.leafCheck leaf, s) := by
  unfold leafCheck Pipeline.leafCheck
  rw [Attempt.get_bind_apply]
  split <;> rfl

@[simp] theorem leavesCheck_apply (L : List Id) (s : Site V) : leavesCheck L s = (s.pipeline.leavesCheck L, s) := by
  induction L with
  | nil => rfl
  | cons each rest ih =>
    have h := leafCheck_apply each s
    rw [leavesCheck, Pipeline.leavesCheck]
    cases hc : s.pipeline.leafCheck each with
    | error e => rw [Attempt.bind_error (hc ▸ h)]; rfl
    | ok u => rw [Attempt.bind_ok (hc ▸ h), ih]; rfl

variable {s : Site V}

theorem assertNode_of_mem {id : Id} (h : id ∈ s.pipeline.nodes.keys) : assertNode id s = (.ok (), s) := by
  unfold assertNode
  rw [Attempt.get_bind_apply, if_neg (not_not.2 h)]
  rfl

theorem assertNode_of_notMem {id : Id} (h : id ∉ s.pipeline.nodes.keys) :
    assertNode id s = (.error .assertFailed, s) := by
  unfold assertNode
  rw [Attempt.get_bind_apply, if_pos h]
  rfl

@[simp] theorem makeQueue_apply (reader : Id) (port : Nat) (s : Site V) : makeQueue reader port s =
    (.ok (.link reader port s.pipeline.option.channelSize),
      ⟨s.pipeline, s.made ++ [.link reader port s.pipeline.option.channelSize]⟩) := rfl

/-- A check in front of both. -/
theorem outcome_check {m : Builder V Unit} {k : Unit → Builder V α} {c : Except BuildError Unit}
    {f : Unit → Except BuildError (Pipeline V × α)} {qs : List Queue} (hm : m s = (c, s))
    (hk : k () s = s.outcome qs (f ())) : (m >>= k) s = s.outcome qs (c >>= f) := by
  cases c with
  | error e => rw [Attempt.bind_error hm]; rfl
  | ok u => rw [Attempt.bind_ok hm]; exact hk

/-- `AddSource`, with the queues it makes. -/
theorem addSource_apply (id : Id) (name : Name) (k : SourceKind V) (s : Site V) :
    addSource id name k s = s.outcome [] (s.pipeline.addSource id name k) := by
  refine outcome_check (newNodeCheck_apply id s) ?_
  simp only [Site.outcome, List.append_nil]
  rfl

/-- `AddTransform`, with the queue it makes. -/
theorem addTransform_apply (leaf id : Id) (name : Name) (k : TransformKind V) (s : Site V) :
    addTransform leaf id name k s =
    s.outcome [.link id 0 s.pipeline.option.channelSize] (s.pipeline.addTransform leaf id name k) := by
  refine outcome_check (newNodeCheck_apply id s) (outcome_check (leafCheck_apply leaf s) ?_)
  by_cases h : leaf ∈ s.pipeline.nodes.keys
  · rw [Attempt.bind_ok (assertNode_of_mem h)]
    simp only [h, not_true_eq_false, if_false]
    rfl
  · rw [Attempt.bind_error (assertNode_of_notMem h)]
    simp only [h, not_false_eq_true, if_true]
    rfl

/-- The loop over the leaves, in `merge_to` and in `merge`, which differ in what they do with `leaves_`. -/
theorem connectLoop_apply (id : Id) (queue : Queue) (f : Pipeline V → Id → Pipeline V)
    (body : Processor V → Id → Builder V (Processor V)) (hbody : ∀ node each s, body node each s =
      (.ok (node.setInputPort queue), ⟨f (Pipeline.connect id queue (s.pipeline, node) each).1 each, s.made⟩))
      (L : List Id) :
    ∀ (node : Processor V) (s : Site V), L.foldlM body node s =
      (.ok (L.foldl (fun st each => (f (Pipeline.connect id queue st each).1 each,
        (Pipeline.connect id queue st each).2)) (s.pipeline, node)).2,
        ⟨(L.foldl (fun st each => (f (Pipeline.connect id queue st each).1 each,
        (Pipeline.connect id queue st each).2)) (s.pipeline, node)).1,
          s.made⟩) := by
  induction L with
  | nil => intro node s; rfl
  | cons each L ih =>
    intro node s
    rw [List.foldlM_cons, Attempt.bind_ok (hbody node each s), ih, List.foldl_cons]
    rfl

/-- `MergeTo`, with the queue it makes. -/
theorem mergeTo_apply (b : Bool) (id : Id) (node : Processor V) (leaves : IdSet) (s : Site V) :
    mergeTo b id node leaves s =
    s.outcome [.link id 0 s.pipeline.option.channelSize] (Pipeline.mergeTo b s.pipeline id node leaves) := by
  refine outcome_check (newNodeCheck_apply id s) (outcome_check (leavesCheck_apply leaves.elems s) ?_)
  rw [Attempt.bind_ok (makeQueue_apply id 0 s)]
  refine (Attempt.bind_ok (connectLoop_apply id (.link id 0 s.pipeline.option.channelSize)
    (fun p each => { p with leaves := p.leaves.erase each }) _ ?_ leaves.elems node _)).trans ?_
  · exact fun _ _ _ => rfl
  · cases b <;> rfl

/-- `Merge`, with the queue it makes. -/
theorem merge_apply (b : Bool) (id : Id) (node : Processor V) (order : IdSet) (s : Site V) :
    merge b id node order s =
    s.outcome [.link id 0 s.pipeline.option.channelSize] (Pipeline.merge b s.pipeline id node order) := by
  unfold merge Pipeline.merge
  rw [Attempt.get_bind_apply]
  split
  · rfl
  refine outcome_check (newNodeCheck_apply id s) ?_
  rw [Attempt.bind_ok (makeQueue_apply id 0 s)]
  refine (Attempt.bind_ok (connectLoop_apply id (.link id 0 s.pipeline.option.channelSize) (fun p _ =>
    p) _ ?_ order.elems node _)).trans ?_
  · exact fun _ _ _ => rfl
  · cases b <;> rfl

/-- A statement behind both. -/
theorem outcome_then {m : Builder V α} {r : Except BuildError (Pipeline V × α)} {qs : List Queue}
    {f : α → Pipeline V → Pipeline V} (hm : m s = s.outcome qs r) :
    (do let a ← m; change (f a); pure a : Builder V α) s = s.outcome qs (do let (p, a) ← r; .ok (f a p, a)) := by
  cases r with
  | error e => rw [Attempt.bind_error hm]; rfl
  | ok x => rw [Attempt.bind_ok hm]; rfl

/-- `SetSink`, with the queue it makes. -/
theorem setSink_apply (id : Id) (name : Name) (k : SinkKind) (order : IdSet) (s : Site V) :
    setSink id name k order s =
    s.outcome [.link id 0 s.pipeline.option.channelSize] (s.pipeline.setSink id name k order) :=
  outcome_then (merge_apply false id (.ofSink name k) order s)

theorem setSinkTo_apply (id : Id) (name : Name) (k : SinkKind) (leaves : IdSet) (s : Site V) :
    setSinkTo id name k leaves s =
    s.outcome [.link id 0 s.pipeline.option.channelSize] (s.pipeline.setSinkTo id name k leaves) :=
  outcome_then (mergeTo_apply false id (.ofSink name k) leaves s)

/-- The queues of a fan-out: one for each branch, and the one before the node. -/
def fanOutQueues (id : Id) (n : Nat) (noopId : Nat → Id) (size : Nat) : List Queue :=
  (List.range n).map (fun i => .link (noopId i) 0 size) ++ [.link id 0 size]

/-- The loop over the branches. -/
theorem fanOutLoop_apply (id : Id) (noopId : Nat → Id) (L : List Nat) :
    ∀ (node : Processor V) (result : Finset Id) (s : Site V), L.foldlM (fun (node, result) i => do
      let queue ← makeQueue (noopId i) 0
      addEdge id (noopId i)
      insertNode (noopId i) (Processor.noOp.setInputPort queue)
      pure (node.addOutputPort queue, insert (noopId i) result) :
      Processor V × Finset Id → Nat → Builder V (Processor V × Finset Id))
        (node, result) s =
      let st := L.foldl (Pipeline.fanOutStep id noopId s.pipeline.option.channelSize) ⟨node, s.pipeline.nodes,
        s.pipeline.dags, result⟩
      (.ok (st.node, st.result), ⟨{ s.pipeline with nodes := st.nodes, dags := st.dags },
        s.made ++ L.map (fun i => .link (noopId i) 0 s.pipeline.option.channelSize)⟩) := by
  induction L with
  | nil => intro node result s; simp only [List.map_nil, List.append_nil]; rfl
  | cons i L ih =>
    intro node result s
    rw [List.foldlM_cons]
    refine (Attempt.bind_ok rfl).trans ?_
    rw [ih]
    simp only [List.map_cons, List.append_assoc, List.foldl_cons]
    rfl

/-- A fan-out, with the queues it makes. -/
theorem fanOut_apply (leaf id : Id) (node : Processor V) (n : Nat) (noopId : Nat → Id) (s : Site V) :
    fanOut leaf id node n noopId s =
      s.outcome (fanOutQueues id n noopId s.pipeline.option.channelSize)
      (.ok (s.pipeline.fanOut leaf id node n noopId)) := by
  unfold fanOut
  refine (Attempt.bind_ok (fanOutLoop_apply id noopId (List.range n) node ∅ s)).trans ?_
  simp only [Site.outcome, fanOutQueues, ← List.append_assoc]
  rfl

/-- `DispatchFrom`, with the queues it makes. -/
theorem dispatchFrom_apply (leaf id : Id) (name : Name) (n : Nat) (pos : 0 < n) (d : List V → V → Nat)
    (noopId : Nat → Id) (s : Site V) :
    dispatchFrom leaf id name n pos d noopId s = s.outcome (fanOutQueues id n noopId s.pipeline.option.channelSize)
      (s.pipeline.dispatchFrom leaf id name n pos d noopId) :=
  outcome_check (leafCheck_apply leaf s) (fanOut_apply leaf id _ n noopId s)

/-- `ForkFrom`, with the queues it makes. -/
theorem forkFrom_apply (leaf : Id) (n : Nat) (id : Id) (noopId : Nat → Id) (s : Site V) :
    forkFrom leaf n id noopId s = s.outcome (fanOutQueues id n noopId s.pipeline.option.channelSize)
      (s.pipeline.forkFrom leaf n id noopId) := by
  refine outcome_check (leafCheck_apply leaf s) ?_
  split
  · exact fanOut_apply leaf id _ n noopId s
  · rfl

/-- The loop over the leaves. -/
theorem concatLoop_apply (id : Id) (L : List Id) : ∀ (node : Processor V) (s : Site V),
    L.foldlM (fun (node : Processor V) each => do
      let queue ← makeQueue id node.inputs.length
      setOutputPort each queue
      addEdge each id
      eraseLeaf each
      pure (node.addInputPort queue) : Processor V → Id → Builder V (Processor V)) node s =
      let st := L.foldl (Pipeline.concatStep id s.pipeline.option.channelSize) (s.pipeline, node)
      (.ok st.2, ⟨st.1, s.made ++
        (List.range' node.inputs.length L.length).map (fun i => .link id i s.pipeline.option.channelSize)⟩) := by
  induction L with
  | nil => intro node s; simp only [List.length_nil, List.range'_zero, List.map_nil, List.append_nil]; rfl
  | cons each L ih =>
    intro node s
    rw [List.foldlM_cons]
    refine (Attempt.bind_ok rfl).trans ?_
    rw [ih]
    have hlen : ∀ q, (node.addInputPort q).inputs.length = node.inputs.length + 1 := fun q => by
      rw [Processor.addInputPort, List.length_append, List.length_singleton]
    simp only [List.length_cons, List.range'_succ, List.map_cons, List.foldl_cons, hlen, List.append_assoc]
    rfl

/-- `ConcatFrom`, with the queues it makes. -/
theorem concatFrom_apply (leaves : List Id) (id : Id) (s : Site V) : concatFrom leaves id s =
    s.outcome ((List.range leaves.length).map (fun i => .link id i s.pipeline.option.channelSize))
    (s.pipeline.concatFrom leaves id) := by
  refine outcome_check (leavesCheck_apply leaves s) ?_
  split
  · refine (Attempt.bind_ok (concatLoop_apply id leaves _ s)).trans ?_
    rw [List.range_eq_range']
    rfl
  · rfl

/-! ## The loop of `AddTransform(creater)` -/

/-- The pipeline after one round of the loop. -/
def round (s : Site V) (each : Id) (t : NewTransform V) : Site V :=
  let queue := Queue.link t.id 0 s.pipeline.option.channelSize
  let (p, node) := Pipeline.connect t.id queue (s.pipeline, .ofTransform t.name t.kind) each
  ⟨{ p with nodes := p.nodes.insert t.id node }, s.made ++ [queue]⟩

/-- A round adds one node. -/
theorem keys_round (s : Site V) (each : Id) (t : NewTransform V) :
    (round s each t).pipeline.nodes.keys = insert t.id s.pipeline.nodes.keys :=
  PMap.keys_insert _ _ _

section

variable {create : Nat → Except String (NewTransform V)} {each : Id} {rest : List Id} {n : Nat} {newLeaves : Finset Id}
  {s : Site V} {t : NewTransform V} {w : String}

/-- The creater throws. -/
theorem loop_creater (h : create n = .error w) :
    addTransformsLoop create (each :: rest) n newLeaves s = (.error (.creater w), s) := by
  unfold addTransformsLoop
  rw [h]
  rfl

/-- The new node is there already. -/
theorem loop_duplicate (h : create n = .ok t) (hid : t.id ∈ s.pipeline.nodes.keys) :
    addTransformsLoop create (each :: rest) n newLeaves s = (.error .duplicateNode, s) := by
  have hcheck : newNodeCheck t.id s = (.error .duplicateNode, s) := by
    rw [newNodeCheck_apply, Pipeline.newNodeCheck, if_pos hid]
  unfold addTransformsLoop
  rw [h]
  exact (Attempt.bind_ok rfl).trans (Attempt.bind_error hcheck)

/-- One round. -/
theorem loop_round (h : create n = .ok t) (hid : t.id ∉ s.pipeline.nodes.keys) (he : each ∈ s.pipeline.nodes.keys) :
    addTransformsLoop create (each :: rest) n newLeaves s =
      addTransformsLoop create rest (n + 1) (insert t.id newLeaves) (round s each t) := by
  have hcheck : newNodeCheck t.id s = (.ok (), s) := by rw [newNodeCheck_apply, Pipeline.newNodeCheck, if_neg hid]
  conv_lhs => unfold addTransformsLoop
  rw [h]
  exact (Attempt.bind_ok rfl).trans ((Attempt.bind_ok hcheck).trans (Attempt.bind_ok (assertNode_of_mem he)))

/-- A leaf that is no node. -/
theorem loop_assert (h : create n = .ok t) (hid : t.id ∉ s.pipeline.nodes.keys) (he : each ∉ s.pipeline.nodes.keys) :
    addTransformsLoop create (each :: rest) n newLeaves s = (.error .assertFailed, s) := by
  have hcheck : newNodeCheck t.id s = (.ok (), s) := by rw [newNodeCheck_apply, Pipeline.newNodeCheck, if_neg hid]
  unfold addTransformsLoop
  rw [h]
  exact (Attempt.bind_ok rfl).trans ((Attempt.bind_ok hcheck).trans (Attempt.bind_error (assertNode_of_notMem he)))

/-- A round throws on the pipeline as it finds it, or it goes through. -/
theorem loop_cases (create : Nat → Except String (NewTransform V)) (each : Id) (rest : List Id) (n : Nat)
    (newLeaves : Finset Id) (s : Site V) :
    (∃ e, addTransformsLoop create (each :: rest) n newLeaves s = (.error e, s)) ∨
    ∃ t, create n = .ok t ∧ t.id ∉ s.pipeline.nodes.keys ∧ each ∈ s.pipeline.nodes.keys ∧
      addTransformsLoop create (each :: rest) n newLeaves s =
        addTransformsLoop create rest (n + 1) (insert t.id newLeaves) (round s each t) := by
  cases hc : create n with
  | error w => exact Or.inl ⟨_, loop_creater hc⟩
  | ok t =>
    by_cases hid : t.id ∈ s.pipeline.nodes.keys
    · exact Or.inl ⟨_, loop_duplicate hc hid⟩
    by_cases he : each ∈ s.pipeline.nodes.keys
    · exact Or.inr ⟨t, rfl, hid, he, loop_round hc hid he⟩
    · exact Or.inl ⟨_, loop_assert hc hid he⟩

end

/-- What the loop keeps, also when it throws: the option, `leaves_` and the processors that were there, and its queues
have the capacity of the option. -/
structure LoopKeeps (s s' : Site V) : Prop where
  option : s'.pipeline.option = s.pipeline.option
  leaves : s'.pipeline.leaves = s.pipeline.leaves
  keys : s.pipeline.nodes.keys ⊆ s'.pipeline.nodes.keys
  made : ∃ qs, s'.made = s.made ++ qs ∧ ∀ q ∈ qs, q.capacity = s.pipeline.option.channelSize

theorem LoopKeeps.refl (s : Site V) : LoopKeeps s s := ⟨rfl, rfl, fun _ h => h, [], (List.append_nil _).symm, by simp⟩

theorem LoopKeeps.trans {s' s'' : Site V} (h : LoopKeeps s s') (h' : LoopKeeps s' s'') : LoopKeeps s s'' := by
  obtain ⟨qs, hm, hqs⟩ := h.made
  obtain ⟨qs', hm', hqs'⟩ := h'.made
  refine ⟨h'.option.trans h.option, h'.leaves.trans h.leaves, fun x hx => h'.keys (h.keys hx), qs ++ qs', ?_,
    fun q hq => ?_⟩
  · rw [hm', hm, List.append_assoc]
  · rcases List.mem_append.1 hq with hq | hq
    · exact hqs q hq
    · rw [hqs' q hq, h.option]

/-- One round keeps what is there. -/
theorem LoopKeeps.round (s : Site V) (each : Id) (t : NewTransform V) : LoopKeeps s (round s each t) := by
  refine ⟨rfl, rfl, ?_, [.link t.id 0 s.pipeline.option.channelSize], rfl, by simp [Queue.capacity]⟩
  rw [keys_round]
  exact Finset.subset_insert _ _

/-- The loop keeps what is there, also where it throws. -/
theorem loop_keeps (create : Nat → Except String (NewTransform V)) (L : List Id) :
    ∀ (n : Nat) (newLeaves : Finset Id) (s : Site V), LoopKeeps s (addTransformsLoop create L n newLeaves s).2 := by
  induction L with
  | nil => exact fun n newLeaves s => .refl s
  | cons each rest ih =>
    intro n newLeaves s
    rcases loop_cases create each rest n newLeaves s with ⟨e, he⟩ | ⟨t, -, -, -, he⟩
    · rw [he]
      exact .refl s
    · rw [he]
      exact (LoopKeeps.round s each t).trans (ih _ _ _)

/-- The new leaves are processors of the pipeline. -/
theorem loop_leaves (create : Nat → Except String (NewTransform V)) (L : List Id) :
    ∀ (n : Nat) (newLeaves result : Finset Id) (s : Site V), newLeaves ⊆ s.pipeline.nodes.keys →
    (addTransformsLoop create L n newLeaves s).1 = .ok result →
    result ⊆ (addTransformsLoop create L n newLeaves s).2.pipeline.nodes.keys := by
  induction L with
  | nil =>
    intro n newLeaves result s hs hok
    cases hok
    exact hs
  | cons each rest ih =>
    intro n newLeaves result s hs hok
    rcases loop_cases create each rest n newLeaves s with ⟨e, he⟩ | ⟨t, -, -, -, he⟩
    · rw [he] at hok
      cases hok
    · rw [he] at hok ⊢
      refine ih _ _ _ _ (fun x hx => ?_) hok
      rw [keys_round, Finset.mem_insert]
      exact (Finset.mem_insert.1 hx).imp_right (fun h => hs h)

/-- The loop returns and throws as what it computes does. -/
theorem loop_run (create : Nat → Except String (NewTransform V)) (L : List Id) :
    ∀ (n : Nat) (newLeaves : Finset Id)
    (s : Site V), (∃ e, Pipeline.addTransformsLoop create L n (s.pipeline, newLeaves) = .error e ∧
    (addTransformsLoop create L n newLeaves s).1 = .error e) ∨
    ∃ p leaves, Pipeline.addTransformsLoop create L n (s.pipeline, newLeaves) = .ok (p, leaves) ∧
      (addTransformsLoop create L n newLeaves s).1 = .ok leaves ∧
      (addTransformsLoop create L n newLeaves s).2.pipeline = p := by
  induction L with
  | nil => exact fun n newLeaves s => Or.inr ⟨_, _, rfl, rfl, rfl⟩
  | cons each rest ih =>
    intro n newLeaves s
    cases hc : create n with
    | error w =>
      rw [loop_creater hc, Pipeline.addTransformsLoop, hc]
      exact Or.inl ⟨_, rfl, rfl⟩
    | ok t =>
      rw [Pipeline.addTransformsLoop, hc]
      by_cases hid : t.id ∈ s.pipeline.nodes.keys
      · rw [loop_duplicate hc hid]
        refine Or.inl ⟨.duplicateNode, ?_, rfl⟩
        simp only [Except.mapError, bind, Except.bind, Pipeline.newNodeCheck, hid, if_true]
      by_cases he : each ∈ s.pipeline.nodes.keys
      · rw [loop_round hc hid he]
        simp only [Except.mapError, bind, Except.bind, Pipeline.newNodeCheck, hid, he, not_true_eq_false, if_false]
        exact ih (n + 1) (insert t.id newLeaves) (round s each t)
      · rw [loop_assert hc hid he]
        refine Or.inl ⟨.assertFailed, ?_, rfl⟩
        simp only [Except.mapError, bind, Except.bind, Pipeline.newNodeCheck, hid, he, not_false_eq_true, if_true,
          if_false]

end Builder

/-! ## What a call keeps -/

namespace Pipeline

/-- What a loop over leaves keeps. -/
structure Kept (p p' : Pipeline V) : Prop where
  option : p'.option = p.option
  keys : p'.nodes.keys = p.nodes.keys
  leaves : p'.leaves ⊆ p.leaves

/-- A loop keeps what each of its rounds keeps. -/
theorem Kept.foldl {β : Type} (step : Pipeline V × β → α → Pipeline V × β) (hstep : ∀ st x, Kept st.1 (step st x).1)
    (L : List α) :
    ∀ st, Kept st.1 (L.foldl step st).1 := by
  induction L with
  | nil => exact fun st => ⟨rfl, rfl, fun _ h => h⟩
  | cons x L ih =>
    intro st
    have h := hstep st x
    have h' := ih (step st x)
    exact ⟨h'.option.trans h.option, h'.keys.trans h.keys, fun y hy => h.leaves (h'.leaves hy)⟩

end Pipeline

/-- The leaves are processors of the pipeline. -/
def Pipeline.LeavesIn (p : Pipeline V) : Prop := p.leaves ⊆ p.nodes.keys

/-- A call that returned left the option alone, and the leaves are processors as they were. -/
def Pipeline.Keeps (p p' : Pipeline V) : Prop := p'.option = p.option ∧ (p.LeavesIn → p'.LeavesIn)

namespace Pipeline

variable {p p' : Pipeline V} {id : Id}

variable {name : Name} {i : Id}

/-- `AddSource` keeps what is there. -/
theorem addSource_keeps {k : SourceKind V} (h : p.addSource id name k = .ok (p', i)) : p.Keeps p' := by
  obtain ⟨_, -, h⟩ := bind_ok h
  cases h
  refine ⟨rfl, fun hp => ?_⟩
  simp only [LeavesIn, PMap.keys_insert]
  exact Finset.insert_subset_insert _ hp

/-- `AddTransform` keeps what is there. -/
theorem addTransform_keeps {leaf : Id} {k : TransformKind V} (h : p.addTransform leaf id name k = .ok (p', i)) :
    p.Keeps p' := by
  obtain ⟨_, -, h⟩ := bind_ok h
  obtain ⟨_, -, h⟩ := bind_ok h
  split at h
  · cases h
  · cases h
    refine ⟨rfl, fun hp => ?_⟩
    simp only [LeavesIn, PMap.keys_insert]
    exact Finset.insert_subset_insert _ (fun x hx => hp (Finset.mem_of_mem_erase hx))

/-- `MergeTo` keeps what is there. -/
theorem mergeTo_keeps {b : Bool} {node : Processor V} {leaves : IdSet}
    (h : Pipeline.mergeTo b p id node leaves = .ok (p', i)) :
    p.Keeps p' := by
  obtain ⟨_, -, h⟩ := bind_ok h
  obtain ⟨_, -, h⟩ := bind_ok h
  have hk := Kept.foldl (fun st each =>
      let (p, node) := connect id (Queue.link id 0 p.option.channelSize) st each
      ({ p with leaves := p.leaves.erase each }, node))
    (fun st each => ⟨rfl, rfl, Finset.erase_subset _ _⟩) leaves.elems (p, node)
  cases h
  refine ⟨hk.option, fun hp => ?_⟩
  simp only [LeavesIn, PMap.keys_insert, hk.keys]
  have hsub := hk.leaves.trans hp
  cases b
  · exact hsub.trans (Finset.subset_insert _ _)
  · exact Finset.insert_subset_insert _ hsub

theorem merge_keeps {b : Bool} {node : Processor V} {order : IdSet}
    (h : Pipeline.merge b p id node order = .ok (p', i)) :
    p.Keeps p' := by
  unfold Pipeline.merge at h
  split at h
  · cases h
  obtain ⟨_, -, h⟩ := bind_ok h
  have hk := Kept.foldl (connect id (Queue.link id 0 p.option.channelSize)) (fun st each =>
    ⟨rfl, rfl, fun _ h => h⟩) order.elems (p, node)
  cases h
  refine ⟨hk.option, fun hp => ?_⟩
  simp only [LeavesIn, PMap.keys_insert]
  cases b
  · exact Finset.empty_subset _
  · exact Finset.insert_subset_insert _ (Finset.empty_subset _)

theorem setSink_keeps {k : SinkKind} {order : IdSet} (h : p.setSink id name k order = .ok (p', i)) : p.Keeps p' := by
  obtain ⟨⟨q, j⟩, hq, h⟩ := bind_ok h
  cases h
  have hk := merge_keeps hq
  exact hk

theorem setSinkTo_keeps {k : SinkKind} {leaves : IdSet} (h : p.setSinkTo id name k leaves = .ok (p', i)) :
    p.Keeps p' := by
  obtain ⟨⟨q, j⟩, hq, h⟩ := bind_ok h
  cases h
  have hk := mergeTo_keeps hq
  exact hk

/-- The branches of a fan-out become processors. -/
theorem fanOut_keys (id : Id) (noopId : Nat → Id) (size : Nat) (L : List Nat) :
    ∀ st : FanOut V, st.result ⊆ st.nodes.keys → (L.foldl (fanOutStep id noopId size) st).result ⊆
    (L.foldl (fanOutStep id noopId size) st).nodes.keys ∧
      st.nodes.keys ⊆ (L.foldl (fanOutStep id noopId size) st).nodes.keys := by
  induction L with
  | nil => exact fun st h => ⟨h, fun _ hx => hx⟩
  | cons i L ih =>
    intro st h
    have hkeys : (fanOutStep id noopId size st i).nodes.keys = insert (noopId i) st.nodes.keys := PMap.keys_insert _ _ _
    obtain ⟨h1, h2⟩ := ih (fanOutStep id noopId size st i) (hkeys ▸ Finset.insert_subset_insert _ h)
    exact ⟨h1, fun x hx => h2 (hkeys ▸ Finset.mem_insert_of_mem hx)⟩

/-- A fan-out keeps what is there. -/
theorem fanOut_keeps (leaf : Id) (node : Processor V) (n : Nat) (noopId : Nat → Id) :
    p.Keeps (p.fanOut leaf id node n noopId).1 := by
  refine ⟨rfl, fun hp => ?_⟩
  obtain ⟨h1, h2⟩ := fanOut_keys id noopId p.option.channelSize (List.range n) ⟨node, p.nodes, p.dags,
    ∅⟩ (Finset.empty_subset _)
  simp only [LeavesIn, fanOut, connect, PMap.keys_insert, PMap.keys_modify]
  refine Finset.union_subset (fun x hx => ?_) (fun x hx => Finset.mem_insert_of_mem (h1 hx))
  exact Finset.mem_insert_of_mem (h2 (hp (Finset.mem_of_mem_erase hx)))

/-- `ConcatFrom` keeps what is there. -/
theorem concatFrom_keeps {leaves : List Id} (h : p.concatFrom leaves id = .ok (p', i)) : p.Keeps p' := by
  obtain ⟨_, -, h⟩ := bind_ok h
  split at h
  · have hk := Kept.foldl (concatStep id p.option.channelSize) (fun st each =>
      ⟨rfl, rfl, Finset.erase_subset _ _⟩) leaves
      (p, { name := "concat", kind := .concat leaves.length ‹_› })
    cases h
    refine ⟨hk.option, fun hp => ?_⟩
    simp only [LeavesIn, PMap.keys_insert, hk.keys]
    exact Finset.insert_subset_insert _ (hk.leaves.trans hp)
  · cases h

/-- What a merge returns, whatever its operands are. -/
theorem mergePipeline_cases {l r : Pipeline V} {noopId : Nat → Id} (h : l.mergePipeline r noopId = .ok p) :
    (l.getProcessorSize = 0 ∧ p = r) ∨ (l.getProcessorSize ≠ 0 ∧ r.getProcessorSize = 0 ∧ p = l) ∨
      (l.getProcessorSize ≠ 0 ∧ r.getProcessorSize ≠ 0 ∧ p.leaves = ∅ ∧ p.option.channelSize = 0) := by
  unfold mergePipeline at h
  split at h
  · cases h
  split at h
  · rename_i hl
    cases h
    exact Or.inl ⟨hl, rfl⟩
  rename_i hl
  split at h
  · rename_i hr
    cases h
    exact Or.inr (Or.inl ⟨hl, hr, rfl⟩)
  rename_i hr
  split at h
  · cases h
  obtain ⟨_, -, h⟩ := bind_ok h
  cases h
  exact Or.inr (Or.inr ⟨hl, hr, rfl, rfl⟩)

end Pipeline

/-- Every call that returns. -/
theorem Call.run_keeps {p p' : Pipeline V} {c : Call V} (hc : ∀ order create, c ≠ .addTransforms order create)
    (h : c.run p = .ok p') :
    p.Keeps p' := by
  cases c with
  | setAbortChannel ch =>
    cases h
    exact ⟨rfl, fun hp => hp⟩
  | addSource id name k =>
    obtain ⟨x, hx, rfl⟩ := map_ok h
    exact Pipeline.addSource_keeps hx
  | addTransform leaf id name k =>
    obtain ⟨x, hx, rfl⟩ := map_ok h
    exact Pipeline.addTransform_keeps hx
  | addTransforms order create => exact absurd rfl (hc order create)
  | setSink id name k order =>
    obtain ⟨x, hx, rfl⟩ := map_ok h
    exact Pipeline.setSink_keeps hx
  | setSinkTo id name k leaves =>
    obtain ⟨x, hx, rfl⟩ := map_ok h
    exact Pipeline.setSinkTo_keeps hx
  | mergeTransformTo id name k leaves =>
    obtain ⟨x, hx, rfl⟩ := map_ok h
    exact Pipeline.mergeTo_keeps hx
  | mergeTo id leaves =>
    obtain ⟨x, hx, rfl⟩ := map_ok h
    exact Pipeline.mergeTo_keeps hx
  | mergeTransform id name k order =>
    obtain ⟨x, hx, rfl⟩ := map_ok h
    exact Pipeline.merge_keeps hx
  | merge id order =>
    obtain ⟨x, hx, rfl⟩ := map_ok h
    exact Pipeline.merge_keeps hx
  | dispatchFrom leaf id name n pos d noopId =>
    obtain ⟨x, hx, rfl⟩ := map_ok h
    obtain ⟨_, -, hx⟩ := bind_ok hx
    cases hx
    exact Pipeline.fanOut_keeps leaf _ n noopId
  | concatFrom leaves id =>
    obtain ⟨x, hx, rfl⟩ := map_ok h
    exact Pipeline.concatFrom_keeps hx
  | forkFrom leaf n id noopId =>
    obtain ⟨x, hx, rfl⟩ := map_ok h
    obtain ⟨_, -, hx⟩ := bind_ok hx
    split at hx
    · cases hx
      exact Pipeline.fanOut_keeps leaf _ n noopId
    · cases hx

/-! ## The calls -/

/-- The call makes queues. -/
def Call.makesQueues : Call V → Bool
  | .setAbortChannel _ => false
  | .addSource .. => false
  | _ => true

/-- The call without what it returns. -/
theorem Builder.outcome_discard {m : Builder V α} {r : Except BuildError (Pipeline V × α)} {s : Site V}
    {qs : List Queue} (hm : m s = s.outcome qs r) :
    (do let _ ← m : Builder V Unit) s = s.outcome qs ((·, ()) <$> ((·.1) <$> r)) := by
  cases r with
  | error e => rw [Attempt.bind_error hm]; rfl
  | ok x => rw [Attempt.bind_ok hm]; rfl

/-- The statements of every call but `AddTransform(creater)`: they throw on the pipeline as it was, or leave what the
call returns and its queues. -/
theorem Call.exec_eq {c : Call V} (hc : ∀ order create, c ≠ .addTransforms order create) (s : Site V) :
    ∃ qs : List Queue, (∀ q ∈ qs, q.capacity = s.pipeline.option.channelSize) ∧
      (∀ p, c.run s.pipeline = .ok p → (qs ≠ [] ↔ c.makesQueues = true)) ∧
      c.exec s = s.outcome qs ((·, ()) <$> c.run s.pipeline) := by
  have hone : ∀ id : Id, ∀ q ∈ [Queue.link id 0 s.pipeline.option.channelSize], q.capacity =
      s.pipeline.option.channelSize := by
    intro id q hq
    rw [List.mem_singleton.1 hq]
    rfl
  have hfan : ∀ (id : Id) n noopId, ∀ q ∈ Builder.fanOutQueues id n noopId s.pipeline.option.channelSize,
      q.capacity = s.pipeline.option.channelSize := by
    intro id n noopId q hq
    rcases List.mem_append.1 hq with hq | hq
    · obtain ⟨i, -, rfl⟩ := List.mem_map.1 hq
      rfl
    · exact hone id q hq
  cases c with
  | setAbortChannel ch =>
    refine ⟨[], by simp, fun _ _ => by simp [Call.makesQueues], ?_⟩
    simp only [Call.run, Site.outcome, List.append_nil]
    rfl
  | addSource id name k =>
    exact ⟨[], by simp, fun _ _ => by simp [Call.makesQueues], Builder.outcome_discard (Builder.addSource_apply id name
      k s)⟩
  | addTransform leaf id name k =>
    exact ⟨_, hone id, fun _ _ =>
      by simp [Call.makesQueues], Builder.outcome_discard (Builder.addTransform_apply leaf id name k s)⟩
  | addTransforms order create => exact absurd rfl (hc order create)
  | setSink id name k order =>
    exact ⟨_, hone id, fun _ _ =>
      by simp [Call.makesQueues], Builder.outcome_discard (Builder.setSink_apply id name k order s)⟩
  | setSinkTo id name k leaves =>
    exact ⟨_, hone id, fun _ _ =>
      by simp [Call.makesQueues], Builder.outcome_discard (Builder.setSinkTo_apply id name k leaves s)⟩
  | mergeTransformTo id name k leaves =>
    exact ⟨_, hone id, fun _ _ =>
      by simp [Call.makesQueues], Builder.outcome_discard (Builder.mergeTo_apply true id _ leaves s)⟩
  | mergeTo id leaves =>
    exact ⟨_, hone id, fun _ _ =>
      by simp [Call.makesQueues], Builder.outcome_discard (Builder.mergeTo_apply true id _ leaves s)⟩
  | mergeTransform id name k order =>
    exact ⟨_, hone id, fun _ _ =>
      by simp [Call.makesQueues], Builder.outcome_discard (Builder.merge_apply true id _ order s)⟩
  | merge id order =>
    exact ⟨_, hone id, fun _ _ =>
      by simp [Call.makesQueues], Builder.outcome_discard (Builder.merge_apply true id _ order s)⟩
  | dispatchFrom leaf id name n pos d noopId =>
    exact ⟨_, hfan id n noopId, fun _ _ => by simp [Call.makesQueues, Builder.fanOutQueues],
      Builder.outcome_discard (Builder.dispatchFrom_apply leaf id name n pos d noopId s)⟩
  | concatFrom leaves id =>
    refine ⟨_, fun q hq => ?_, fun p hp => ?_, Builder.outcome_discard (Builder.concatFrom_apply leaves id s)⟩
    · obtain ⟨i, -, rfl⟩ := List.mem_map.1 hq
      rfl
    · obtain ⟨_, hx, -⟩ := map_ok hp
      obtain ⟨_, -, hx⟩ := bind_ok hx
      split at hx
      · rename_i pos
        simpa [Call.makesQueues] using List.ne_nil_of_length_pos pos
      · cases hx
  | forkFrom leaf n id noopId =>
    exact ⟨_, hfan id n noopId, fun _ _ => by simp [Call.makesQueues, Builder.fanOutQueues],
      Builder.outcome_discard (Builder.forkFrom_apply leaf n id noopId s)⟩

/-- The statements of `AddTransform(creater)`. -/
theorem Call.exec_addTransforms (order : IdSet) (create : Nat → Except String (NewTransform V)) (s : Site V) :
    (∃ e, (Builder.addTransformsLoop create order.elems 0 ∅ s).1 = .error e ∧ (Call.addTransforms order create).exec s =
      (.error e, (Builder.addTransformsLoop create order.elems 0 ∅ s).2)) ∨
    ∃ leaves, (Builder.addTransformsLoop create order.elems 0 ∅ s).1 = .ok leaves ∧
    (Call.addTransforms order create).exec s =
      (.ok (), ⟨{ (Builder.addTransformsLoop create order.elems 0 ∅ s).2.pipeline with leaves := leaves },
        (Builder.addTransformsLoop create order.elems 0 ∅ s).2.made⟩) := by
  rcases hloop : Builder.addTransformsLoop create order.elems 0 ∅ s with ⟨e | leaves, t⟩
  · have h : Builder.addTransforms order create s = (.error e, t) := Attempt.bind_error hloop
    exact Or.inl ⟨e, rfl, Attempt.bind_error h⟩
  · have h : Builder.addTransforms order create s = (.ok leaves, ⟨{ t.pipeline with leaves := leaves }, t.made⟩) :=
      Attempt.bind_ok hloop
    exact Or.inr ⟨leaves, rfl, Attempt.bind_ok h⟩

/-- A call returns and throws as `Call.run` does, and leaves its pipeline when it returns. -/
theorem Call.exec_run (c : Call V) (s : Site V) :
    (∃ e, c.run s.pipeline = .error e ∧ (c.exec s).1 = .error e) ∨
    ∃ p, c.run s.pipeline = .ok p ∧ (c.exec s).1 = .ok () ∧ (c.exec s).2.pipeline = p := by
  by_cases hc : ∀ order create, c ≠ .addTransforms order create
  · obtain ⟨qs, -, -, he⟩ := Call.exec_eq hc s
    rw [he]
    cases hrun : c.run s.pipeline with
    | error e => exact Or.inl ⟨e, rfl, rfl⟩
    | ok p => exact Or.inr ⟨p, rfl, rfl, rfl⟩
  · push Not at hc
    obtain ⟨order, create, rfl⟩ := hc
    rcases Builder.loop_run create order.elems 0 ∅ s with ⟨e, hf, hl⟩ | ⟨p, leaves, hf, hl, hp⟩ <;>
      rcases Call.exec_addTransforms order create s with ⟨e', hl', he⟩ | ⟨leaves', hl', he⟩ <;> rw [hl] at hl' <;>
        cases hl'
    · refine Or.inl ⟨e, ?_, by rw [he]⟩
      simp only [Call.run, Pipeline.addTransforms, hf]
      rfl
    · refine Or.inr ⟨_, ?_, by rw [he], by rw [he, hp]⟩
      simp only [Call.run, Pipeline.addTransforms, hf]
      rfl

end Tunnel
