import Mathlib.Data.Finset.Basic
import Mathlib.Data.Finset.SDiff
import Mathlib.Data.List.Nodup
import Tunnel.Pipeline

/-!
# What a builder call does to a pipeline

Every builder call adds fresh processors and hangs some of them behind leaves: it is a `Growth`, and `Grown p g p'` says
what the pipeline after it holds, lookup by lookup. `call_grows` shows this for all thirteen calls; the invariants of a
built pipeline are then proved about a growth once and for all, and no later proof unfolds a call.
-/

namespace Tunnel

open Lib

variable {V : Type}

/-- A computation that goes on returned, and so did what it went on with. -/
theorem bind_ok {ε α β : Type} {x : Except ε α} {f : α → Except ε β} {b : β} (h : (x >>= f) = .ok b) :
    ∃ a, x = .ok a ∧ f a = .ok b := by
  cases x with
  | error e => cases h
  | ok a => exact ⟨a, rfl, h⟩

/-- Where a mapped result comes from. -/
theorem map_ok {ε α β : Type} {x : Except ε α} {f : α → β} {b : β} (h : f <$> x = .ok b) :
    ∃ a, x = .ok a ∧ f a = b := by
  cases x with
  | error e => cases h
  | ok a => exact ⟨a, rfl, Except.ok.inj h⟩

namespace Pipeline

variable {p : Pipeline V} {u : Unit}

/-- A new id passed the check. -/
theorem newNodeCheck_ok {id : Id} (h : p.newNodeCheck id = .ok u) : id ∉ p.nodes.keys := by
  unfold newNodeCheck at h
  split at h
  · cases h
  · assumption

/-- A leaf passed the check. -/
theorem leafCheck_ok {leaf : Id} (h : p.leafCheck leaf = .ok u) : leaf ∈ p.leaves := by
  unfold leafCheck at h
  split at h
  · assumption
  · cases h

/-- Leaves passed the check. -/
theorem leavesCheck_ok {L : List Id} (h : p.leavesCheck L = .ok u) : ∀ l ∈ L, l ∈ p.leaves := by
  induction L with
  | nil => intro l hl; simp at hl
  | cons a L ih =>
    obtain ⟨_, ha, hL⟩ := bind_ok h
    intro l hl
    rcases List.mem_cons.1 hl with rfl | hl
    · exact leafCheck_ok ha
    · exact ih hL l hl

/-- The successors after `add_edge`. -/
theorem getD_addEdge (dags : PMap Id (Finset Id)) (u v w : Id) :
    ((addEdge dags u v).get w).getD ∅ = if w = u then insert v ((dags.get u).getD ∅) else (dags.get w).getD ∅ := by
  rw [addEdge, PMap.get_assign]
  split <;> simp_all

/-- The edges after `addEdge`. -/
theorem edge_addEdge (dags : PMap Id (Finset Id)) (u v a b : Id) :
    b ∈ ((addEdge dags u v).get a).getD ∅ ↔ b ∈ (dags.get a).getD ∅ ∨ (a = u ∧ b = v) := by
  rw [getD_addEdge]
  by_cases ha : a = u
  · subst ha; simp [or_comm]
  · simp [ha]

/-- The nodes after `addEdge`. -/
theorem mem_keys_addEdge (dags : PMap Id (Finset Id)) (u v w : Id) :
    w ∈ (addEdge dags u v).keys ↔ w = u ∨ w ∈ dags.keys := by
  simp [addEdge, PMap.assign]

end Pipeline

/-- A processor after it was hung before a queue, or left alone. -/
def Processor.setOut (n : Processor V) : Option Queue → Processor V
  | some q => n.setOutputPort q
  | none => n

/-- The last queue stays. -/
@[simp] theorem Processor.setOutputPort_setOut (n : Processor V) (o : Option Queue) (q : Queue) :
    (n.setOut o).setOutputPort q = n.setOut (some q) := by
  cases o <;> rfl

@[simp] theorem Processor.setOut_none (n : Processor V) : n.setOut none = n := rfl

/-- What a builder call adds: fresh processors, the queue it hangs each old leaf before, and the edges. -/
structure Growth (V : Type) where
  fresh : Id → Option (Processor V)
  out : Id → Option Queue
  edge : Id → Id → Prop
  leaf : Id → Prop
  sources : List Id
  sinks : List Id

/-- `p'` is `p` with a growth added to it. -/
structure Grown (p : Pipeline V) (g : Growth V) (p' : Pipeline V) : Prop where
  nodes : ∀ j, p'.nodes.get j = (g.fresh j).or ((p.nodes.get j).map (·.setOut (g.out j)))
  edges : ∀ u v, p'.Edge u v ↔ p.Edge u v ∨ g.edge u v
  dagKeys : ∀ u ∈ p'.dags.keys, u ∈ p.dags.keys ∨ ∃ v, g.edge u v
  leaves : ∀ j, j ∈ p'.leaves ↔ (j ∈ p.leaves ∧ g.out j = none) ∨ g.leaf j
  sources : p'.sources = p.sources ++ g.sources
  sinks : p'.sinks = p.sinks ++ g.sinks
  option : p'.option = p.option

/-! ## The growths of the builder calls -/

namespace Growth

/-- `AddSource`: one processor, and nothing behind a leaf. -/
def source (id : Id) (node : Processor V) : Growth V where
  fresh j := if j = id then some node else none
  out _ := none
  edge _ _ := False
  leaf j := j = id
  sources := [id]
  sinks := []

/-- A processor after `n` calls of `SetInputPort` with one queue. -/
def fed (node : Processor V) (q : Queue) (n : Nat) : Processor V :=
  if n = 0 then node else { node with inputPort := some q, inputCount := node.inputCount + n }

/-- One processor behind the leaves `L`, on one queue: `AddTransform`, `Merge` and (not a leaf then) `SetSink`. -/
def attach (id : Id) (node : Processor V) (L : List Id) (size : Nat) (isSink : Bool) : Growth V where
  fresh j := if j = id then some (fed node (.link id 0 size) L.length) else none
  out j := if j ∈ L then some (.link id 0 size) else none
  edge u v := u ∈ L ∧ v = id
  leaf j := isSink = false ∧ j = id
  sources := []
  sinks := if isSink then [id] else []

/-- The queues of a `Concat`, in port order. -/
def concatQueues (id : Id) (size n : Nat) : List (Option Queue) := (List.range n).map (fun i => some (.link id i size))

/-- The last place an id has in a list, counted from the front. -/
def lastIndex (L : List Id) (j : Id) : Nat := L.length - 1 - L.reverse.idxOf j

/-- `ConcatFrom`: one processor behind the leaves `L`, each on a queue of its own; a leaf named twice keeps the last
queue. -/
def concat (id : Id) (L : List Id) (pos : 0 < L.length) (size : Nat) : Growth V where
  fresh j := if j = id then
    some { name := "concat", kind := .concat L.length pos, inputs := concatQueues id size L.length } else none
  out j := if j ∈ L then some (.link id (lastIndex L j) size) else none
  edge u v := u ∈ L ∧ v = id
  leaf j := j = id
  sources := []
  sinks := []

/-- The queues from a fan-out to its branches. -/
def branchQueues (noopId : Nat → Id) (size n : Nat) : List (Option Queue) :=
  (List.range n).map (fun i => some (.link (noopId i) 0 size))

/-- `DispatchFrom` and `ForkFrom`: the node behind a leaf, and one `NoOpTransform` behind each of its outputs. -/
def fanOut (leaf id : Id) (node : Processor V) (n : Nat) (noopId : Nat → Id) (size : Nat) : Growth V where
  fresh j :=
    if j = id then some { node with
      outputs := node.outputs ++ branchQueues noopId size n, inputPort := some (.link id 0 size)
      inputCount := node.inputCount + 1 }
    else if j ∈ (List.range n).map noopId then some (Processor.noOp.setInputPort (.link j 0 size)) else none
  out j := if j = leaf then some (.link id 0 size) else none
  edge u v := (u = leaf ∧ v = id) ∨ (u = id ∧ v ∈ (List.range n).map noopId)
  leaf j := j ∈ (List.range n).map noopId
  sources := []
  sinks := []

/-- `SetAbortChannel`: nothing. -/
def nothing : Growth V where
  fresh _ := none
  out _ := none
  edge _ _ := False
  leaf _ := False
  sources := []
  sinks := []

end Growth

/-! ## The loops -/

namespace Pipeline

/-- The loop of `merge`: every element of the list is hung before the queue, once or more. -/
theorem connect_foldl (id : Id) (q : Queue) (L : List Id) : ∀ (p : Pipeline V) (node : Processor V),
    (∀ j, (L.foldl (connect id q) (p, node)).1.nodes.get j =
      (p.nodes.get j).map (·.setOut (if j ∈ L then some q else none))) ∧
    (∀ u v, (L.foldl (connect id q) (p, node)).1.Edge u v ↔ p.Edge u v ∨ (u ∈ L ∧ v = id)) ∧
    (∀ u, u ∈ (L.foldl (connect id q) (p, node)).1.dags.keys ↔ u ∈ p.dags.keys ∨ u ∈ L) ∧
    (L.foldl (connect id q) (p, node)).1.leaves = p.leaves ∧
    (L.foldl (connect id q) (p, node)).1.sources = p.sources ∧
    (L.foldl (connect id q) (p, node)).1.sinks = p.sinks ∧
    (L.foldl (connect id q) (p, node)).1.option = p.option ∧
    (L.foldl (connect id q) (p, node)).2 = Growth.fed node q L.length := by
  induction L with
  | nil =>
    intro p node
    refine ⟨fun j => ?_, fun u v => by simp, fun u => by simp, rfl, rfl, rfl, rfl, by simp [Growth.fed]⟩
    cases h : p.nodes.get j <;> simp [h, Processor.setOut]
  | cons a L ih =>
    intro p node
    obtain ⟨h1, h2, hd, h3, h4, h5, h6, h7⟩ := ih (connect id q (p, node) a).1 (connect id q (p, node) a).2
    rw [List.foldl_cons]
    refine ⟨fun j => ?_, fun u v => ?_, fun u => ?_, h3, h4, h5, h6, ?_⟩
    · rw [h1 j]
      simp only [connect, PMap.get_modify]
      cases hp : p.nodes.get j with
      | none => by_cases hj : j = a <;> simp [hj]
      | some n =>
        by_cases hj : j = a
        · subst hj
          by_cases hL : j ∈ L <;> simp [hL, Processor.setOut, Processor.setOutputPort]
        · simp [hj]
    · rw [h2 u v]
      simp only [Edge, succs, connect, edge_addEdge, List.mem_cons]
      grind
    · rw [hd u]
      simp only [connect, mem_keys_addEdge, List.mem_cons]
      grind
    · rw [h7]
      simp only [connect, Growth.fed, List.length_cons, Processor.setInputPort]
      by_cases hL : L.length = 0
      · simp [hL]
      · simp [hL]
        omega

/-- The loop of `merge_to` is that of `merge`, and takes the leaves it goes through out of `leaves_`. -/
theorem mergeTo_foldl (id : Id) (q : Queue) (L : List Id) : ∀ (p : Pipeline V) (node : Processor V),
    L.foldl (fun st each => ({ (connect id q st each).1 with leaves := (connect id q st each).1.leaves.erase each },
      (connect id q st each).2)) (p, node) =
    ({ (L.foldl (connect id q) (p, node)).1 with leaves := p.leaves \ L.toFinset },
      (L.foldl (connect id q) (p, node)).2) := by
  have hcomm : ∀ (M : List Id) (p : Pipeline V) (node : Processor V) (S : Finset Id),
      M.foldl (connect id q) ({ p with leaves := S }, node) =
        ({ (M.foldl (connect id q) (p, node)).1 with leaves := S }, (M.foldl (connect id q) (p, node)).2) := by
    intro M
    induction M with
    | nil => intro p node S; rfl
    | cons a M ih => intro p node S; exact ih (connect id q (p, node) a).1 (connect id q (p, node) a).2 S
  induction L with
  | nil => intro p node; simp
  | cons a L ih =>
    intro p node
    rw [List.foldl_cons, ih, hcomm, List.foldl_cons]
    have hl : p.leaves.erase a \ L.toFinset = p.leaves \ (a :: L).toFinset := by
      ext j
      simp only [Finset.mem_sdiff, Finset.mem_erase, List.mem_toFinset, List.mem_cons]
      grind
    simp only [connect, hl]

/-! ## Each call is a growth -/

variable {p p' : Pipeline V} {id r : Id} {name : Name}

/-- `AddSource` adds a source. -/
theorem addSource_grown {k : SourceKind V} (h : p.addSource id name k = .ok (p', r)) :
    id ∉ p.nodes.keys ∧ Grown p (.source id (.ofSource name k)) p' := by
  obtain ⟨_, hn, h⟩ := bind_ok h
  have hid := newNodeCheck_ok hn
  cases h
  refine ⟨hid, ⟨fun j => ?_,
    fun u v => by simp [Edge, succs, Growth.source], fun u hu => Or.inl hu, fun j => ?_, rfl, by
    simp [Growth.source], rfl⟩⟩
  · rw [PMap.get_insert_of_notMem ((p.nodes.get_eq_none_iff id).2 hid)]
    by_cases hj : j = id
    · simp [hj, Growth.source]
    · cases hp : p.nodes.get j <;> simp [hj, Growth.source, Processor.setOut]
  · simp [Growth.source, or_comm]

/-- What `merge` and `merge_to` leave once the loop is over. -/
theorem attach_grown (node : Processor V) (L : List Id) (isSink : Bool) (hid : id ∉ p.nodes.keys) (p' : Pipeline V)
    (hn : p'.nodes = (L.foldl (connect id (.link id 0 p.option.channelSize)) (p,
      node)).1.nodes.insert id (L.foldl (connect id (.link id 0 p.option.channelSize)) (p, node)).2)
    (hd : p'.dags = (L.foldl (connect id (.link id 0 p.option.channelSize)) (p, node)).1.dags)
    (hl : ∀ j, j ∈ p'.leaves ↔ (j ∈ p.leaves ∧ j ∉ L) ∨ (isSink = false ∧ j = id)) (hs : p'.sources = p.sources)
    (hk : p'.sinks = p.sinks ++ if isSink then [id] else []) (ho : p'.option = p.option) :
    Grown p (.attach id node L p.option.channelSize isSink) p' := by
  obtain ⟨h1, h2, hdk, -, -, -, -, h7⟩ := connect_foldl id (.link id 0 p.option.channelSize) L p node
  have hnone := (p.nodes.get_eq_none_iff id).2 hid
  refine ⟨fun j => ?_, fun u v => ?_, fun u hu => ?_, fun j => ?_,
    by simp [hs, Growth.attach], by simp [hk, Growth.attach], ho⟩
  · rw [hn, PMap.get_insert_of_notMem (by rw [h1, hnone]; rfl), h7, h1]
    by_cases hj : j = id
    · simp [hj, Growth.attach]
    · simp [hj, Growth.attach]
  · have he : p'.Edge u v ↔ (L.foldl (connect id (.link id 0 p.option.channelSize)) (p, node)).1.Edge u v := by
      simp only [Edge, succs, hd]
    exact he.trans (h2 u v)
  · rw [hd] at hu
    exact ((hdk u).1 hu).imp_right (fun h => ⟨id, h, rfl⟩)
  · rw [hl]
    simp [Growth.attach]

/-- `AddTransform` adds a processor behind a leaf. -/
theorem addTransform_grown {leaf : Id} {k : TransformKind V} (h : p.addTransform leaf id name k = .ok (p', r)) :
    id ∉ p.nodes.keys ∧ leaf ∈ p.leaves ∧
    Grown p (.attach id (.ofTransform name k) [leaf] p.option.channelSize false) p' := by
  obtain ⟨_, hn, h⟩ := bind_ok h
  obtain ⟨_, hl, h⟩ := bind_ok h
  have hid := newNodeCheck_ok hn
  split at h
  · cases h
  · cases h
    refine ⟨hid, leafCheck_ok hl, attach_grown _ [leaf] false hid _ rfl rfl (fun j => ?_) rfl (by simp) rfl⟩
    simp [and_comm, or_comm]

/-- `MergeTo` adds a processor behind the leaves it names. -/
theorem mergeTo_grown {node : Processor V} {L : IdSet} {ins : Bool} (h : mergeTo ins p id node L = .ok (p', r)) :
    id ∉ p.nodes.keys ∧ (∀ l ∈ L.elems, l ∈ p.leaves) ∧ r = id ∧
      ∀ sinks, (ins = true → sinks = []) → (ins = false → sinks = [id]) →
        Grown p (.attach id node L.elems p.option.channelSize !ins) { p' with sinks := p'.sinks ++ sinks } := by
  obtain ⟨_, hn, h⟩ := bind_ok h
  obtain ⟨_, hl, h⟩ := bind_ok h
  have hid := newNodeCheck_ok hn
  simp only [mergeTo_foldl] at h
  cases h
  refine ⟨hid, leavesCheck_ok hl, rfl, fun sinks ht hf => ?_⟩
  obtain ⟨-, -, -, -, h4, h5, h6, -⟩ := connect_foldl id (.link id 0 p.option.channelSize) L.elems p node
  refine attach_grown _ L.elems (!ins) hid _ rfl rfl (fun j => ?_) h4 ?_ h6
  · cases ins <;> simp [or_comm]
  · cases ins
    · simp [h5, hf rfl]
    · simp [h5, ht rfl]

/-- `Merge` adds one behind all leaves. -/
theorem merge_grown {node : Processor V} {order : IdSet} {ins : Bool} (ho : order.elems.toFinset = p.leaves)
    (h : merge ins p id node order = .ok (p', r)) :
    id ∉ p.nodes.keys ∧ order.elems ≠ [] ∧ r = id ∧
      ∀ sinks, (ins = true → sinks = []) → (ins = false → sinks = [id]) →
        Grown p (.attach id node order.elems p.option.channelSize !ins) { p' with sinks := p'.sinks ++ sinks } := by
  unfold merge at h
  split at h
  · cases h
  · rename_i hne
    obtain ⟨_, hn, h⟩ := bind_ok h
    have hid := newNodeCheck_ok hn
    cases h
    refine ⟨hid, fun hnil => hne (by rw [← ho, hnil]; rfl), rfl, fun sinks ht hf => ?_⟩
    obtain ⟨-, -, -, -, h4, h5, h6, -⟩ := connect_foldl id (.link id 0 p.option.channelSize) order.elems p node
    have hmem : ∀ j, ¬(j ∈ p.leaves ∧ j ∉ order.elems) := by
      intro j ⟨hj, hnj⟩
      rw [← ho, List.mem_toFinset] at hj
      exact hnj hj
    refine attach_grown _ order.elems (!ins) hid _ rfl rfl (fun j => ?_) h4 ?_ h6
    · have := hmem j
      cases ins <;> simp [this]
    · cases ins
      · simp [h5, hf rfl]
      · simp [h5, ht rfl]

/-- `SetSink` adds a sink behind all leaves. -/
theorem setSink_grown {k : SinkKind} {order : IdSet} (ho : order.elems.toFinset = p.leaves)
    (h : p.setSink id name k order = .ok (p', r)) :
    order.elems ≠ [] ∧ Grown p (.attach id (.ofSink name k) order.elems p.option.channelSize true) p' := by
  obtain ⟨⟨q, i⟩, hm, hq⟩ := bind_ok h
  obtain ⟨-, hnil, rfl, hg⟩ := merge_grown ho hm
  cases hq
  exact ⟨hnil, hg [_] (by simp) (by simp)⟩

/-- The last place in a longer list. -/
theorem lastIndex_snoc (L : List Id) (a j : Id) :
    Growth.lastIndex (L ++ [a]) j = if j = a then L.length else Growth.lastIndex L j := by
  unfold Growth.lastIndex
  simp only [List.reverse_append, List.reverse_singleton, List.singleton_append, List.length_append,
    List.length_singleton]
  by_cases hj : j = a
  · subst hj; simp
  · rw [List.idxOf_cons_ne _ (Ne.symm hj)]
    simp only [hj, if_false]
    omega

/-- The loop of `ConcatFrom`. -/
theorem concat_foldl (id : Id) (size : Nat) (p : Pipeline V) (node : Processor V) (hnode : node.inputs = [])
    (L : List Id) :
    (∀ j, (L.foldl (concatStep id size) (p, node)).1.nodes.get j =
      (p.nodes.get j).map (·.setOut (if j ∈ L then some (.link id (Growth.lastIndex L j) size) else none))) ∧
    (∀ u v, (L.foldl (concatStep id size) (p, node)).1.Edge u v ↔ p.Edge u v ∨ (u ∈ L ∧ v = id)) ∧
    (∀ u, u ∈ (L.foldl (concatStep id size) (p, node)).1.dags.keys ↔ u ∈ p.dags.keys ∨ u ∈ L) ∧
    (∀ j, j ∈ (L.foldl (concatStep id size) (p, node)).1.leaves ↔ j ∈ p.leaves ∧ j ∉ L) ∧
    (L.foldl (concatStep id size) (p, node)).1.sources = p.sources ∧
    (L.foldl (concatStep id size) (p, node)).1.sinks = p.sinks ∧
    (L.foldl (concatStep id size) (p, node)).1.option = p.option ∧
    (L.foldl (concatStep id size) (p, node)).2 = { node with inputs := Growth.concatQueues id size L.length } := by
  -- from the right: a later element overwrites the port an earlier one set
  induction L using List.reverseRecOn with
  | nil =>
    refine ⟨fun j => ?_, fun u v => by simp, fun u => by simp, fun j => by simp, rfl, rfl, rfl, ?_⟩
    · cases h : p.nodes.get j <;> simp [h, Processor.setOut]
    · simp [Growth.concatQueues, ← hnode]
  | append_singleton L a ih =>
    obtain ⟨h1, h2, hd, h3, h4, h5, h6, h7⟩ := ih
    rw [List.foldl_append, List.foldl_cons, List.foldl_nil]
    generalize L.foldl (concatStep id size) (p, node) = st at h1 h2 hd h3 h4 h5 h6 h7
    have hlen : st.2.inputs.length = L.length := by rw [h7]; simp [Growth.concatQueues]
    refine ⟨fun j => ?_, fun u v => ?_, fun u => ?_, fun j => ?_, h4, h5, h6, ?_⟩
    · simp only [concatStep, PMap.get_modify, hlen, h1, lastIndex_snoc, List.mem_append, List.mem_singleton]
      cases hp : p.nodes.get j with
      | none => simp
      | some n =>
        by_cases hj : j = a
        · simp [hj]
        · simp [hj]
    · have h2' := h2 u v
      simp only [Edge, succs] at h2' ⊢
      simp only [concatStep, edge_addEdge, List.mem_append, List.mem_singleton]
      rw [h2']
      grind
    · simp only [concatStep, mem_keys_addEdge, hd, List.mem_append, List.mem_singleton]
      grind
    · simp only [concatStep, Finset.mem_erase, h3, List.mem_append, List.mem_singleton]
      grind
    · simp only [concatStep, Processor.addInputPort, hlen]
      rw [h7]
      simp [Growth.concatQueues, List.range_succ]

/-- `ConcatFrom` adds a `Concat`. -/
theorem concatFrom_grown {L : List Id} (hid : id ∉ p.nodes.keys) (h : p.concatFrom L id = .ok (p', r)) :
    (∀ l ∈ L, l ∈ p.leaves) ∧ ∃ pos : 0 < L.length, Grown p (.concat id L pos p.option.channelSize) p' := by
  obtain ⟨_, hl, h⟩ := bind_ok h
  split at h
  · rename_i pos
    cases h
    refine ⟨leavesCheck_ok hl, pos, ?_⟩
    obtain ⟨h1, h2, hd, h3, h4, h5, h6, h7⟩ := concat_foldl id p.option.channelSize p
      { name := "concat", kind := .concat L.length pos } rfl L
    have hnone := (p.nodes.get_eq_none_iff id).2 hid
    refine ⟨fun j => ?_, fun u v => ?_, fun u hu => ?_, fun j => ?_,
      by simp [h4, Growth.concat], by simp [h5, Growth.concat], h6⟩
    · simp only
      rw [PMap.get_insert_of_notMem (by rw [h1, hnone]; rfl), h7, h1]
      by_cases hj : j = id
      · simp [hj, Growth.concat]
      · simp [hj, Growth.concat]
    · exact h2 u v
    · exact ((hd u).1 hu).imp_right (fun h => ⟨id, h, rfl⟩)
    · simp only [Finset.mem_insert, h3]
      simp [Growth.concat, or_comm]
  · cases h

/-- The loop of a fan-out. -/
theorem fanOut_foldl (id : Id) (noopId : Nat → Id) (size : Nat) (st : FanOut V) (n : Nat)
    (hnew : ∀ i < n, st.nodes.get (noopId i) = none) :
    ((List.range n).foldl (fanOutStep id noopId size) st).node =
      { st.node with outputs := st.node.outputs ++ Growth.branchQueues noopId size n } ∧
    (∀ j, ((List.range n).foldl (fanOutStep id noopId size) st).nodes.get j =
      if j ∈ (List.range n).map noopId then some (Processor.noOp.setInputPort (.link j 0 size)) else st.nodes.get j) ∧
    (∀ u v, v ∈ (((List.range n).foldl (fanOutStep id noopId size) st).dags.get u).getD ∅ ↔
      v ∈ (st.dags.get u).getD ∅ ∨ (u = id ∧ v ∈ (List.range n).map noopId)) ∧
    (∀ u, u ∈ ((List.range n).foldl (fanOutStep id noopId size) st).dags.keys ↔ u ∈ st.dags.keys ∨ (0 < n ∧ u = id)) ∧
    (∀ j, j ∈ ((List.range n).foldl (fanOutStep id noopId size) st).result ↔
      j ∈ st.result ∨ j ∈ (List.range n).map noopId) := by
  induction n with
  | zero => simp [Growth.branchQueues]
  | succ n ih =>
    obtain ⟨h1, h2, h3, hd, h4⟩ := ih (fun i hi => hnew i (by omega))
    rw [List.range_succ, List.foldl_append, List.foldl_cons, List.foldl_nil]
    generalize (List.range n).foldl (fanOutStep id noopId size) st = st' at h1 h2 h3 hd h4
    have hn := hnew n (by omega)
    refine ⟨?_, fun j => ?_, fun u v => ?_, fun u => ?_, fun j => ?_⟩
    · simp [fanOutStep, h1, Processor.addOutputPort, Growth.branchQueues, List.range_succ]
    · simp only [fanOutStep, List.map_append, List.mem_append, List.map_cons, List.map_nil, List.mem_singleton]
      rw [PMap.get_insert, h2, h2]
      by_cases hj : j = noopId n
      · -- an id that came before was given the same processor, so that keeping it changes nothing
        subst hj
        by_cases hm : noopId n ∈ (List.range n).map noopId
        · simp only [hm, if_true, true_or, Option.getD_some]
        · simp only [hm, if_false, if_true, or_true, hn, Option.getD_none]
      · simp [hj]
    · simp only [fanOutStep, edge_addEdge, h3, List.map_append, List.mem_append, List.map_cons, List.map_nil,
        List.mem_singleton]
      grind
    · simp only [fanOutStep, mem_keys_addEdge, hd]
      by_cases hu : u = id <;> simp [hu]
    · simp only [fanOutStep, Finset.mem_insert, h4, List.map_append, List.mem_append, List.map_cons, List.map_nil,
        List.mem_singleton]
      grind

/-- A fan-out adds a hub and its branches. -/
theorem fanOut_grown {leaf : Id} (node : Processor V) (n : Nat) (noopId : Nat → Id) (hid : id ∉ p.nodes.keys)
    (hnoop : ∀ i < n, noopId i ∉ p.nodes.keys) (hne : ∀ i < n, noopId i ≠ id) (hl : leaf ∈ p.nodes.keys) :
    Grown p (.fanOut leaf id node n noopId p.option.channelSize) (p.fanOut leaf id node n noopId).1 := by
  obtain ⟨h1, h2, h3, hd, h4⟩ := fanOut_foldl id noopId p.option.channelSize ⟨node, p.nodes, p.dags, ∅⟩ n
    (fun i hi => (p.nodes.get_eq_none_iff _).2 (hnoop i hi))
  have hidm : id ∉ (List.range n).map noopId := by
    intro hm
    obtain ⟨i, hi, he⟩ := List.mem_map.1 hm
    exact hne i (List.mem_range.1 hi) he
  have hleaf : leaf ∉ (List.range n).map noopId := by
    intro hm
    obtain ⟨i, hi, rfl⟩ := List.mem_map.1 hm
    exact hnoop i (List.mem_range.1 hi) hl
  have hlid : leaf ≠ id := fun h => hid (h ▸ hl)
  have hnone := (p.nodes.get_eq_none_iff id).2 hid
  unfold fanOut
  generalize (List.range n).foldl (fanOutStep id noopId p.option.channelSize) ⟨node, p.nodes, p.dags, ∅⟩ = st
    at h1 h2 h3 hd h4
  simp only [connect]
  refine ⟨fun j => ?_, fun u v => ?_, fun u hu => ?_, fun j => ?_,
    by simp [Growth.fanOut], by simp [Growth.fanOut], rfl⟩
  · simp only
    rw [PMap.get_insert_of_notMem (by rw [PMap.get_modify, h2]; simp [hidm, hnone, Ne.symm hlid]), PMap.get_modify, h2,
      h1]
    by_cases hj : j = id
    · simp [hj, Growth.fanOut, Processor.setInputPort]
    · by_cases hjl : j = leaf
      · subst hjl
        simp only [hj, hleaf, if_false, if_true, Growth.fanOut, Option.none_or, Processor.setOut]
      · by_cases hm : j ∈ (List.range n).map noopId
        · simp only [hj, hjl, hm, if_false, if_true, Growth.fanOut, Option.some_or]
        · simp only [hj, hjl, hm, if_false, Growth.fanOut, Option.none_or, Processor.setOut_none, Option.map_id']
  · have h3' := h3 u v
    simp only [Edge, succs, edge_addEdge, Growth.fanOut]
    rw [h3']
    grind
  · rcases (mem_keys_addEdge _ _ _ _).1 hu with rfl | hu
    · exact Or.inr ⟨id, Or.inl ⟨rfl, rfl⟩⟩
    · rcases (hd u).1 hu with hu | ⟨h0, rfl⟩
      · exact Or.inl hu
      · exact Or.inr ⟨noopId 0, Or.inr ⟨rfl, List.mem_map.2 ⟨0, List.mem_range.2 h0, rfl⟩⟩⟩
  · simp only [Finset.mem_union, Finset.mem_erase, h4, Growth.fanOut]
    by_cases hjl : j = leaf
    · subst hjl; simp
    · simp [hjl]

section fanOut

variable {p p' : Pipeline V} {leaf id : Id} {n : Nat} {noopId : Nat → Id} {S : Finset Id}
  (hnew : ∀ j ∈ insert id ((List.range n).map noopId).toFinset, j ∉
    p.nodes.keys) (nodup : (id :: (List.range n).map noopId).Nodup)
  (hl : ∀ l ∈ p.leaves, l ∈ p.nodes.keys)
include hnew nodup hl

/-- It does so behind a leaf. -/
theorem fanOut_leaf_grown (node : Processor V) (hleaf : leaf ∈ p.leaves) :
    Grown p (.fanOut leaf id node n noopId p.option.channelSize) (p.fanOut leaf id node n noopId).1 := by
  have hmem : ∀ i < n, noopId i ∈ (List.range n).map noopId := fun i hi => List.mem_map.2 ⟨i, List.mem_range.2 hi, rfl⟩
  obtain ⟨hne, -⟩ := List.nodup_cons.1 nodup
  exact fanOut_grown node n noopId (hnew id (Finset.mem_insert_self _ _))
    (fun i hi => hnew _ (Finset.mem_insert_of_mem (List.mem_toFinset.2 (hmem i hi)))) (fun i hi he =>
      hne (he ▸ hmem i hi)) (hl leaf hleaf)

/-- `DispatchFrom` adds a fan-out. -/
theorem dispatchFrom_grown {name : Name} {pos : 0 < n} {d : List V → V → Nat}
    (h : p.dispatchFrom leaf id name n pos d noopId = .ok (p', S)) : leaf ∈ p.leaves ∧
      Grown p (.fanOut leaf id { name := name, kind := .dispatch n pos d } n noopId p.option.channelSize) p' := by
  obtain ⟨_, hlc, h⟩ := bind_ok h
  cases h
  exact ⟨leafCheck_ok hlc, fanOut_leaf_grown hnew nodup hl _ (leafCheck_ok hlc)⟩

/-- `ForkFrom` adds a fan-out. -/
theorem forkFrom_grown (h : p.forkFrom leaf n id noopId = .ok (p', S)) : leaf ∈ p.leaves ∧
    ∃ pos, Grown p (.fanOut leaf id { name := "fork", kind := .fork n pos } n noopId p.option.channelSize) p' := by
  obtain ⟨_, hlc, h⟩ := bind_ok h
  split at h
  · rename_i pos
    cases h
    exact ⟨leafCheck_ok hlc, pos, fanOut_leaf_grown hnew nodup hl _ (leafCheck_ok hlc)⟩
  · cases h

end fanOut

end Pipeline

/-! ## Sequences of growths -/

/-- The growths that builder calls make on a pipeline, with the ids of the processors they add. `noRepeat` and
`nonempty` are what is known of the arguments: that no `ConcatFrom` names a leaf twice, that no leaf set is empty. -/
inductive GrowthOf (noRepeat nonempty : Prop) (p : Pipeline V) : Finset Id → Growth V → Prop where
  | nothing : GrowthOf noRepeat nonempty p ∅ .nothing
  | source (id : Id) (name : Name) (k : SourceKind V) :
      GrowthOf noRepeat nonempty p {id} (.source id (.ofSource name k))
  | transform (id : Id) (name : Name) (k : TransformKind V) (L : List Id) (mem : ∀ l ∈ L, l ∈
      p.leaves) (nodup : L.Nodup)
      (ne : nonempty → L ≠ []) :
      GrowthOf noRepeat nonempty p {id} (.attach id (.ofTransform name k) L p.option.channelSize false)
  | sink (id : Id) (name : Name) (k : SinkKind) (L : List Id) (mem : ∀ l ∈ L, l ∈ p.leaves) (nodup : L.Nodup)
      (ne : nonempty → L ≠ []) :
        GrowthOf noRepeat nonempty p {id} (.attach id (.ofSink name k) L p.option.channelSize true)
  | concat (id : Id) (L : List Id) (pos : 0 < L.length) (mem : ∀ l ∈ L, l ∈ p.leaves) (nodup : noRepeat → L.Nodup) :
      GrowthOf noRepeat nonempty p {id} (.concat id L pos p.option.channelSize)
  | dispatch (leaf id : Id) (name : Name) (n : Nat) (pos : 0 < n) (d : List V → V → Nat) (noopId : Nat → Id)
      (mem : leaf ∈ p.leaves) (nodup : (id :: (List.range n).map noopId).Nodup) :
      GrowthOf noRepeat nonempty p (insert id ((List.range n).map noopId).toFinset)
        (.fanOut leaf id { name := name, kind := .dispatch n pos d } n noopId p.option.channelSize)
  | fork (leaf id : Id) (n : Nat) (pos : 0 < n) (noopId : Nat → Id) (mem : leaf ∈ p.leaves)
      (nodup : (id :: (List.range n).map noopId).Nodup) :
      GrowthOf noRepeat nonempty p (insert id ((List.range n).map noopId).toFinset)
        (.fanOut leaf id { name := "fork", kind := .fork n pos } n noopId p.option.channelSize)

/-- `p'` is reached from `p` by growths whose processors have fresh ids, the ids handed out going from `U` to `U'`. -/
inductive Grows (noRepeat nonempty : Prop) (p : Pipeline V) (U : Finset Id) : Pipeline V → Finset Id → Prop where
  | refl : Grows noRepeat nonempty p U p U
  | step {p₁ p' : Pipeline V} {U₁ K : Finset Id} {g : Growth V} : Grows noRepeat nonempty p U p₁ U₁ →
      GrowthOf noRepeat nonempty p₁ K g → Disjoint K U₁ → Grown p₁ g p' → Grows noRepeat nonempty p U p' (U₁ ∪ K)

variable {nr ne : Prop} {p p' : Pipeline V} {U : Finset Id}

/-- One growth. -/
theorem Grows.single {K : Finset Id} {g : Growth V} (hg : GrowthOf nr ne p K g) (hK : Disjoint K U) (h : Grown p g p') :
    Grows nr ne p U p' (U ∪ K) :=
  .step .refl hg hK h

/-- Growths one after another. -/
theorem Grows.trans {p₁ : Pipeline V} {U₁ U' : Finset Id} (h : Grows nr ne p U p₁ U₁) (h' : Grows nr ne p₁ U₁ p' U') :
    Grows nr ne p U p' U' := by
  induction h' with
  | refl => exact h
  | step _ hg hK hs ih => exact .step ih hg hK hs

/-- What every growth keeps, a sequence of growths keeps. -/
theorem Grows.induct {U' : Finset Id} {I : Pipeline V → Finset Id → Prop} (h : Grows nr ne p U p' U') (h0 : I p U)
    (hstep : ∀ {p p' : Pipeline V} {U K : Finset Id} {g : Growth V}, I p U → GrowthOf nr ne p K g → Disjoint K U →
      Grown p g p' → I p' (U ∪ K)) :
    I p' U' := by
  induction h with
  | refl => exact h0
  | step _ hg hK hs ih => exact hstep ih hg hK hs

/-- The ids of the transforms that `create` returns in the rounds from `n` on, `rounds` of them. -/
def CreatedIn (create : Nat → Except String (NewTransform V)) (n rounds : Nat) (x : Id) : Prop :=
  ∃ m t, n ≤ m ∧ m < n + rounds ∧ create m = .ok t ∧ t.id = x

/-- What the next round creates. -/
theorem createdIn_succ {create : Nat → Except String (NewTransform V)} {n : Nat} {t : NewTransform V}
    (ht : create n = .ok t) (rounds : Nat) (x : Id) :
    CreatedIn create n (rounds + 1) x ↔ x = t.id ∨ CreatedIn create (n + 1) rounds x := by
  constructor
  · rintro ⟨m, t', h1, h2, h3, h4⟩
    by_cases hm : m = n
    · subst hm
      rw [ht] at h3
      cases h3
      exact Or.inl h4.symm
    · exact Or.inr ⟨m, t', by omega, by omega, h3, h4⟩
  · rintro (rfl | ⟨m, t', h1, h2, h3, h4⟩)
    · exact ⟨n, t, Nat.le_refl n, by omega, ht, rfl⟩
    · exact ⟨m, t', by omega, by omega, h3, h4⟩

/-- The nodes after a processor was hung behind leaves. -/
theorem Grown.attach_keys {id : Id} {node : Processor V} {L : List Id} {size : Nat} {isSink : Bool}
    (h : Grown p (.attach id node L size isSink) p') (j : Id) : j ∈ p'.nodes.keys ↔ j = id ∨ j ∈ p.nodes.keys := by
  rw [PMap.mem_keys, PMap.mem_keys, h.nodes j]
  by_cases hj : j = id <;> simp [hj, Growth.attach]

/-- One round of the loop of `AddTransform(creater)`, seen with the leaves still to come and the new ones as `leaves_`:
the leaf gives way to the new transform. -/
theorem addTransformsRound_grown {t : NewTransform V} (hid : t.id ∉ p.nodes.keys) {a : Id} {L : List Id}
    {S : Finset Id} (haL : a ∉ L) (haS : a ∉ S) :
    let st := Pipeline.connect t.id (.link t.id 0 p.option.channelSize) (p, Processor.ofTransform t.name t.kind) a
    Grown { p with leaves := (a :: L).toFinset ∪ S } (.attach t.id (.ofTransform t.name t.kind) [a] p.option.channelSize
      false)
      { st.1 with nodes := st.1.nodes.insert t.id st.2, leaves := L.toFinset ∪ insert t.id S } := by
  intro st
  let p₀ : Pipeline V := { p with leaves := (a :: L).toFinset ∪ S }
  have hmem : ∀ j, j ∈ L.toFinset ∪ insert t.id S ↔ (j ∈ (a :: L).toFinset ∪ S ∧ j ∉ [a]) ∨
      (false = false ∧ j = t.id) := by
    intro j
    simp only [Finset.mem_union, Finset.mem_insert, List.mem_toFinset, List.mem_cons, List.not_mem_nil, or_false,
      true_and]
    by_cases hj : j = a
    · subst hj
      simp [haL, haS]
    · simp only [hj, false_or, not_false_eq_true, and_true]
      rw [or_left_comm, or_comm]
  exact Pipeline.attach_grown (p := p₀) _ [a] false hid _ rfl rfl hmem rfl (by simp [st, Pipeline.connect, p₀]) rfl

/-- The loop of `AddTransform(creater)` is a growth in each round. -/
theorem addTransformsLoop_grows (nr ne : Prop) (create : Nat → Except String (NewTransform V)) (U : Finset Id) :
    ∀ (L : List Id) (n : Nat) (p : Pipeline V) (S : Finset Id) (N : Finset Id) (p' : Pipeline V) (S' : Finset Id),
      L.Nodup → (∀ l ∈ L, l ∈ p.nodes.keys) → (∀ l ∈ L, l ∉ S) → N ⊆ p.nodes.keys →
      (∀ x, CreatedIn create n L.length x → x ∉ U) →
      Pipeline.addTransformsLoop create L n (p, S) = .ok (p', S') →
      ∃ N', Grows nr ne { p with leaves := L.toFinset ∪ S } (U ∪ N) { p' with leaves := S' } (U ∪ N') ∧
        ∀ x, x ∈ N' ↔ x ∈ N ∨ CreatedIn create n L.length x := by
  intro L
  induction L with
  | nil =>
    intro n p S N p' S' _ _ _ _ _ h
    cases h
    refine ⟨N, by simpa using Grows.refl, fun x => ⟨Or.inl, ?_⟩⟩
    rintro (h | ⟨m, t, h1, h2, -⟩)
    · exact h
    · simp only [List.length_nil, Nat.add_zero] at h2
      omega
  | cons a L ih =>
    intro n p S N p' S' hnd hk hS hN hfresh h
    obtain ⟨t, ht, h⟩ := bind_ok h
    obtain ⟨_, hc, h⟩ := bind_ok h
    have hid : t.id ∉ p.nodes.keys := Pipeline.newNodeCheck_ok hc
    have hct : create n = .ok t := by
      cases hcn : create n with
      | error e => rw [hcn] at ht; cases ht
      | ok t' => rw [hcn] at ht; cases ht; rfl
    have hmade := createdIn_succ hct L.length
    split at h
    · cases h
    · obtain ⟨haL, hnd⟩ := List.nodup_cons.1 hnd
      have hgrown := addTransformsRound_grown hid haL (hS a List.mem_cons_self)
      let st := Pipeline.connect t.id (.link t.id 0 p.option.channelSize) (p, Processor.ofTransform t.name t.kind) a
      let p₁ : Pipeline V := { st.1 with nodes := st.1.nodes.insert t.id st.2 }
      have hkeys : ∀ j, j ∈ p₁.nodes.keys ↔ j = t.id ∨ j ∈ p.nodes.keys := hgrown.attach_keys
      obtain ⟨N', hg', hN'⟩ := ih (n + 1) p₁ (insert t.id S) (insert t.id N) p' S' hnd
        (fun l hl => (hkeys l).2 (Or.inr (hk l (List.mem_cons_of_mem _ hl))))
        (by
          intro l hl hm
          rcases Finset.mem_insert.1 hm with rfl | hm
          · exact hid (hk _ (List.mem_cons_of_mem _ hl))
          · exact hS l (List.mem_cons_of_mem _ hl) hm)
        (by
          intro x hx
          rcases Finset.mem_insert.1 hx with rfl | hx
          · exact (hkeys _).2 (Or.inl rfl)
          · exact (hkeys x).2 (Or.inr (hN hx)))
        (fun x hx => hfresh x ((hmade x).2 (Or.inr hx))) h
      have hdis : Disjoint ({t.id} : Finset Id) (U ∪ N) := by
        rw [Finset.disjoint_singleton_left, Finset.mem_union]
        rintro (hU | hN0)
        · exact hfresh t.id ((hmade t.id).2 (Or.inl rfl)) hU
        · exact hid (hN hN0)
      have hstep : Grows nr ne _ (U ∪ N) _ (U ∪ N ∪ {t.id}) :=
        .single (.transform t.id t.name t.kind [a] (by simp) (by simp) (by simp)) hdis hgrown
      rw [Finset.union_assoc, Finset.union_comm N, ← Finset.insert_eq] at hstep
      refine ⟨N', hstep.trans hg', fun x => ?_⟩
      rw [hN', Finset.mem_insert, List.length_cons, hmade, or_assoc, or_left_comm]

/-- The ids of an `AddTransform(creater)` are those of all its rounds. -/
theorem Call.mem_ids_addTransforms (order : IdSet) (create : Nat → Except String (NewTransform V)) (x : Id) :
    x ∈ (Call.addTransforms order create).ids ↔ CreatedIn create 0 order.elems.length x := by
  simp only [Call.ids, Finset.mem_biUnion, List.mem_toFinset, List.mem_range]
  constructor
  · rintro ⟨m, hm, hx⟩
    cases hc : create m with
    | error e => rw [hc] at hx; simp at hx
    | ok t =>
      rw [hc] at hx
      exact ⟨m, t, Nat.zero_le m, by omega, hc, (Finset.mem_singleton.1 hx).symm⟩
  · rintro ⟨m, t, -, hm, hc, rfl⟩
    refine ⟨m, by omega, ?_⟩
    rw [hc]
    exact Finset.mem_singleton_self _

theorem IdSet.mem_of_toFinset {order : IdSet} {S : Finset Id} (ho : order.elems.toFinset = S) :
    ∀ l ∈ order.elems, l ∈ S := by
  intro l hl
  rw [← ho, List.mem_toFinset]
  exact hl

/-- A growth without a sink leaves `sinks_` alone. -/
theorem Grown.no_sink {g : Growth V} (h : Grown p g { p' with sinks := p'.sinks ++ [] }) : Grown p g p' := by
  rwa [List.append_nil] at h

/-- An `AddTransform(creater)` that returns is a sequence of growths. -/
theorem addTransforms_grows (nr ne : Prop) {order : IdSet} {create : Nat → Except String (NewTransform V)}
    (hl : ∀ l ∈ p.leaves, l ∈ p.nodes.keys) (hdis : Disjoint (Call.addTransforms order create).ids U)
    (ho : order.elems.toFinset = p.leaves) (h : (Call.addTransforms order create).run p = .ok p') :
    Grows nr ne p U p' (U ∪ (Call.addTransforms order create).ids) := by
  obtain ⟨⟨q, r⟩, hq, rfl⟩ := map_ok h
  obtain ⟨⟨q', S⟩, hloop, hq'⟩ := bind_ok hq
  cases hq'
  have hids := Call.mem_ids_addTransforms order create
  obtain ⟨N, hg, hN⟩ := addTransformsLoop_grows nr ne create U order.elems 0 p ∅ ∅ _ _ order.nodup
    (fun l hlo => hl l (IdSet.mem_of_toFinset ho l hlo)) (by simp) (by simp) (fun x hx =>
      Finset.disjoint_left.1 hdis ((hids x).2 hx)) hloop
  have hNe : N = (Call.addTransforms order create).ids := by
    ext x
    rw [hN, hids]
    simp
  rw [Finset.union_empty, Finset.union_empty, ho, hNe] at hg
  exact hg

/-- Every builder call that returns is a sequence of growths with the call's ids. -/
theorem call_grows (nr ne : Prop) (c : Call V) (hk : p.nodes.keys ⊆ U) (hl : ∀ l ∈ p.leaves, l ∈ p.nodes.keys)
    (hdis : Disjoint c.ids U) (hid : c.DistinctIds) (he : c.Enumerates p) (hnr : nr → c.NoRepeat)
    (hne : ne → c.NonemptyLeaves) (h : c.run p = .ok p') : Grows nr ne p U p' (U ∪ c.ids) := by
  have hnew : ∀ j ∈ c.ids, j ∉ p.nodes.keys := fun j hj hm => Finset.disjoint_left.1 hdis hj (hk hm)
  cases c with
  | setAbortChannel ch =>
    cases h
    refine .single .nothing hdis ⟨fun j => ?_, fun u v => ?_, fun u hu => Or.inl hu, fun j => ?_, ?_, ?_, rfl⟩ <;>
      simp [Growth.nothing, Pipeline.setAbortChannel, Pipeline.Edge, Pipeline.succs]
  | addSource id name k =>
    obtain ⟨⟨q, r⟩, hq, rfl⟩ := map_ok h
    exact .single (.source id name k) hdis (Pipeline.addSource_grown hq).2
  | addTransform leaf id name k =>
    obtain ⟨⟨q, r⟩, hq, rfl⟩ := map_ok h
    obtain ⟨-, hleaf, hg⟩ := Pipeline.addTransform_grown hq
    exact .single (.transform id name k [leaf] (by simpa using hleaf) (by simp) (by simp)) hdis hg
  | addTransforms order create => exact addTransforms_grows nr ne hl hdis he h
  | setSink id name k order =>
    obtain ⟨⟨q, r⟩, hm, rfl⟩ := map_ok h
    have ho : order.elems.toFinset = p.leaves := he
    obtain ⟨hnil, hg⟩ := Pipeline.setSink_grown ho hm
    exact .single (.sink _ name k order.elems (IdSet.mem_of_toFinset ho) order.nodup (fun _ => hnil)) hdis hg
  | setSinkTo id name k leaves =>
    obtain ⟨⟨q, r⟩, hq, rfl⟩ := map_ok h
    obtain ⟨⟨q', r'⟩, hm, hq'⟩ := bind_ok hq
    obtain ⟨-, hmem, rfl, hg⟩ := Pipeline.mergeTo_grown hm
    cases hq'
    exact .single (.sink _ name k leaves.elems hmem leaves.nodup hne) hdis (hg [_] (by simp) (by simp))
  | mergeTransformTo id name k leaves =>
    obtain ⟨⟨q, r⟩, hm, rfl⟩ := map_ok h
    obtain ⟨-, hmem, -, hg⟩ := Pipeline.mergeTo_grown hm
    exact .single (.transform id name k leaves.elems hmem leaves.nodup hne) hdis (hg [] (by simp) (by simp)).no_sink
  | mergeTo id leaves =>
    obtain ⟨⟨q, r⟩, hm, rfl⟩ := map_ok h
    obtain ⟨-, hmem, -, hg⟩ := Pipeline.mergeTo_grown hm
    exact .single (.transform id "no_op" .noOp leaves.elems hmem leaves.nodup hne) hdis
      (hg [] (by simp) (by simp)).no_sink
  | mergeTransform id name k order =>
    obtain ⟨⟨q, r⟩, hm, rfl⟩ := map_ok h
    have ho : order.elems.toFinset = p.leaves := he
    obtain ⟨-, hnil, -, hg⟩ := Pipeline.merge_grown ho hm
    exact .single (.transform id name k order.elems (IdSet.mem_of_toFinset ho) order.nodup (fun _ => hnil)) hdis
      (hg [] (by simp) (by simp)).no_sink
  | merge id order =>
    obtain ⟨⟨q, r⟩, hm, rfl⟩ := map_ok h
    have ho : order.elems.toFinset = p.leaves := he
    obtain ⟨-, hnil, -, hg⟩ := Pipeline.merge_grown ho hm
    exact .single (.transform id "no_op" .noOp order.elems (IdSet.mem_of_toFinset ho) order.nodup (fun _ => hnil)) hdis
      (hg [] (by simp) (by simp)).no_sink
  | dispatchFrom leaf id name n pos d noopId =>
    obtain ⟨⟨q, r⟩, hm, rfl⟩ := map_ok h
    obtain ⟨hleaf, hg⟩ := Pipeline.dispatchFrom_grown hnew hid hl hm
    exact .single (.dispatch leaf id name n pos d noopId hleaf hid) hdis hg
  | concatFrom leaves id =>
    obtain ⟨⟨q, r⟩, hm, rfl⟩ := map_ok h
    obtain ⟨hmem, pos, hg⟩ := Pipeline.concatFrom_grown (hnew id (by simp [Call.ids])) hm
    exact .single (.concat id leaves pos hmem hnr) hdis hg
  | forkFrom leaf n id noopId =>
    obtain ⟨⟨q, r⟩, hm, rfl⟩ := map_ok h
    obtain ⟨hleaf, pos, hg⟩ := Pipeline.forkFrom_grown hnew hid hl hm
    exact .single (.fork leaf id n pos noopId hleaf hid) hdis hg

end Tunnel
