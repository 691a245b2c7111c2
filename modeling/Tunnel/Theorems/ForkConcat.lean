import Tunnel.Lemmas.Occupancy

/-!
# A fork before a concat

A `Fork` writes every value to all its branches; a `Concat` reads one branch to its end before it touches the next. A
branch that the `Concat` has not come to holds its queue before the `NoOpTransform`, the one element the `NoOpTransform`
has in hand and the queue behind it, `2 * channel_size + 1` elements, and not more. So the run stands still when the
`Fork` has more than that to write there before it is through with the branch that is read.
-/

namespace Tunnel

open Lib

variable {V : Type}

/-! ## The pipeline -/

/-- The arguments of `AddSource`, `ForkFrom`, `ConcatFrom` and `SetSink`: the source generates `values`, and the
`Concat` is given the branches in an order. -/
structure ForkConcat (V : Type) where
  option : PipelineOption
  values : List V
  branches : Nat
  order : List Nat
  source : Id
  fork : Id
  noopId : Nat → Id
  concat : Id
  sink : Id
  room : 1 ≤ option.channelSize
  perm : order.Perm (List.range branches)

/-- A processor is of a class and has its ports before and behind given queues, with one EOF to wait for. -/
structure Processor.Is (n : Processor V) (kind : Kind V) (ins outs : List Queue) : Prop where
  kind_eq : n.kind = kind
  inChan_eq : ∀ i, n.inChan i = ins[i]?
  outChan_eq : ∀ o, n.outChan o = outs[o]?
  need_eq : ins ≠ [] → n.need = 1

namespace ForkConcat

variable (f : ForkConcat V)

/-- The builder calls. -/
def calls : List (Call V) :=
  [.addSource f.source "source" (.generate (fun k => f.values[k]?)), .forkFrom f.source f.branches f.fork f.noopId,
    .concatFrom (f.order.map f.noopId) f.concat, .setSink f.sink "sink" .consume ⟨[f.concat], List.nodup_singleton _⟩]

def size : Nat := f.option.channelSize

/-- The queue before the `Fork`. -/
def forkQueue : Queue := .link f.fork 0 f.size

/-- The queue from the `Fork` to the `NoOpTransform` of a branch. -/
def branchQueue (b : Nat) : Queue := .link (f.noopId b) 0 f.size

/-- The queue before an input of the `Concat`. -/
def portQueue (t : Nat) : Queue := .link f.concat t f.size

/-- The queue before the sink. -/
def sinkQueue : Queue := .link f.sink 0 f.size

/-- The pipeline the calls make. -/
structure Layout (p : Pipeline V) (pos : 0 < f.branches) : Prop where
  source : ∃ n, p.nodes.get f.source = some n ∧ n.Is (.source (.generate (fun k => f.values[k]?))) [] [f.forkQueue]
  fork : ∃ n, p.nodes.get f.fork = some n ∧
    n.Is (.fork f.branches pos) [f.forkQueue] ((List.range f.branches).map f.branchQueue)
  noop : ∀ t b, f.order[t]? = some b → ∃ n, p.nodes.get (f.noopId b) = some n ∧
    n.Is (.transform .noOp) [f.branchQueue b] [f.portQueue t]
  concat : ∃ n, p.nodes.get f.concat = some n ∧
    n.Is (.concat f.branches pos) ((List.range f.branches).map f.portQueue) [f.sinkQueue]
  sink : ∃ n, p.nodes.get f.sink = some n ∧ n.Is (.sink .consume) [f.sinkQueue] []
  only : ∀ u ∈ p.nodes.keys, u = f.source ∨ u = f.fork ∨
    (∃ (t : Nat) (b : Nat), f.order[t]? = some b ∧ u = f.noopId b) ∨ u = f.concat ∨ u = f.sink
  completed : p.leaves = ∅

/-- Every branch once. -/
theorem length_order : f.order.length = f.branches := by rw [f.perm.length_eq, List.length_range]

theorem mem_order (b : Nat) : b ∈ f.order ↔ b < f.branches := by rw [f.perm.mem_iff, List.mem_range]

/-- Every branch has its input of the `Concat`. -/
theorem exists_port {b : Nat} (hb : b < f.branches) : ∃ t < f.branches, f.order[t]? = some b := by
  obtain ⟨t, ht⟩ := List.mem_iff_getElem?.1 ((f.mem_order b).2 hb)
  obtain ⟨hlt, -⟩ := List.getElem?_eq_some_iff.1 ht
  exact ⟨t, f.length_order ▸ hlt, ht⟩

/-- Each place has its branch. -/
theorem exists_branch {t : Nat} (ht : t < f.branches) : ∃ b < f.branches, f.order[t]? = some b := by
  rw [← f.length_order] at ht
  exact ⟨f.order[t], (f.mem_order _).1 (List.getElem_mem ht), List.getElem?_eq_getElem ht⟩

/-- The place of a branch in the vector is the input it gets. -/
theorem lastIndex_order (hinj : ((List.range f.branches).map f.noopId).Nodup) {t b : Nat} (ht : f.order[t]? = some b) :
    Growth.lastIndex (f.order.map f.noopId) (f.noopId b) = t := by
  have hnodup : (f.order.map f.noopId).Nodup := (f.perm.map f.noopId).nodup_iff.2 hinj
  have hget : (f.order.map f.noopId)[t]? = some (f.noopId b) := by rw [List.getElem?_map, ht]; rfl
  have hlast := Growth.getElem?_lastIndex (List.mem_of_getElem? hget)
  obtain ⟨hlt, -⟩ := List.getElem?_eq_some_iff.1 hlast
  exact (List.getElem?_inj hlt hnodup).1 (hlast.trans hget.symm)

/-- The ids of the processors differ. -/
structure Distinct : Prop where
  noop : ((List.range f.branches).map f.noopId).Nodup
  fork_noop : f.fork ∉ (List.range f.branches).map f.noopId
  source_noop : f.source ∉ (List.range f.branches).map f.noopId
  concat_noop : f.concat ∉ (List.range f.branches).map f.noopId
  sink_noop : f.sink ∉ (List.range f.branches).map f.noopId
  source_fork : f.source ≠ f.fork
  concat_source : f.concat ≠ f.source
  concat_fork : f.concat ≠ f.fork
  sink_source : f.sink ≠ f.source
  sink_fork : f.sink ≠ f.fork
  sink_concat : f.sink ≠ f.concat

/-- The calls returned, one after the other. -/
theorem growths {p : Pipeline V} {U : Finset Id} (hb : build Call.Proper f.calls (.new f.option, ∅) = some (p, U)) :
    f.Distinct ∧ ∃ p₁ p₂ p₃ pos posL,
      Grown (.new f.option) (.source f.source (.ofSource "source" (.generate (fun k => f.values[k]?)))) p₁ ∧
      Grown p₁ (.fanOut f.source f.fork { name := "fork", kind := .fork f.branches pos } f.branches f.noopId f.size)
      p₂ ∧ Grown p₂ (.concat f.concat (f.order.map f.noopId) posL f.size) p₃ ∧
      Grown p₃ (.attach f.sink (.ofSink "sink" .consume) [f.concat] f.size true) p ∧ p₃.leaves = {f.concat} := by
  obtain ⟨p₁, hP₁, hd₁, hid₁, he₁, h₁, hb⟩ := build_cons hb
  obtain ⟨p₂, hP₂, hd₂, hid₂, he₂, h₂, hb⟩ := build_cons hb
  obtain ⟨p₃, -, hd₃, -, -, h₃, hb⟩ := build_cons hb
  obtain ⟨p₄, -, hd₄, -, ho₄, h₄, hb⟩ := build_cons hb
  cases hb
  have hB₁ := Built.call _ (.new f.option) hP₁ hd₁ hid₁ he₁ h₁
  have hS₁ := built_sound hB₁
  have hS₂ := built_sound (Built.call _ hB₁ hP₂ hd₂ hid₂ he₂ h₂)
  obtain ⟨⟨q₁, r₁⟩, hr₁, rfl⟩ := map_ok h₁
  obtain ⟨⟨q₂, r₂⟩, hr₂, rfl⟩ := map_ok h₂
  obtain ⟨⟨q₃, r₃⟩, hr₃, rfl⟩ := map_ok h₃
  obtain ⟨⟨q₄, r₄⟩, hr₄, rfl⟩ := map_ok h₄
  obtain ⟨-, g₁⟩ := Pipeline.addSource_grown hr₁
  obtain ⟨-, pos, g₂⟩ := Pipeline.forkFrom_grown (fun j hj hk => Finset.disjoint_left.1 hd₂ hj (hS₁.keys hk)) hid₂
    (fun l hl => ((hS₁.leaves_iff l).1 hl).1) hr₂
  obtain ⟨hleaves, posL, g₃⟩ := Pipeline.concatFrom_grown
    (fun hk => Finset.disjoint_left.1 hd₃ (Finset.mem_singleton_self _) (hS₂.keys hk)) hr₃
  obtain ⟨-, g₄⟩ := Pipeline.setSink_grown ho₄ hr₄
  have hsize₁ : q₁.option.channelSize = f.size := congrArg PipelineOption.channelSize g₁.option
  have hsize₂ : q₂.option.channelSize = f.size := (congrArg PipelineOption.channelSize g₂.option).trans hsize₁
  have hsize₃ : q₃.option.channelSize = f.size := (congrArg PipelineOption.channelSize g₃.option).trans hsize₂
  rw [hsize₁] at g₂
  rw [hsize₂] at g₃
  rw [hsize₃] at g₄
  obtain ⟨hfork, hnoop⟩ := List.nodup_cons.1 (show (f.fork :: (List.range f.branches).map f.noopId).Nodup from hid₂)
  simp only [Call.ids, Finset.disjoint_left, Finset.mem_insert, List.mem_toFinset, Finset.mem_union,
    Finset.notMem_empty, Finset.mem_singleton, false_or, forall_eq, forall_eq_or_imp, not_or] at hd₂ hd₃ hd₄
  refine ⟨⟨hnoop, hfork, fun h => hd₂.2 _ h rfl, hd₃.2.2, hd₄.1.2.2, Ne.symm hd₂.1, hd₃.1, hd₃.2.1, hd₄.1.1, hd₄.1.2.1,
    hd₄.2⟩, q₁, q₂, q₃, pos, posL, g₁, g₂, g₃, g₄, ?_⟩
  exact (show [f.concat].toFinset = q₃.leaves from ho₄).symm

/-- The calls make the layout. -/
theorem layout {p : Pipeline V} {U : Finset Id} (hb : build Call.Proper f.calls (.new f.option, ∅) = some (p, U)) :
    ∃ pos, f.Layout p pos := by
  obtain ⟨hd, p₁, p₂, p₃, pos, posL, g₁, g₂, g₃, g₄, hl⟩ := f.growths hb
  have hnoop : ∀ {u : Id}, u ∈ f.order.map f.noopId ↔ u ∈ (List.range f.branches).map f.noopId :=
    (f.perm.map f.noopId).mem_iff
  have hget : ∀ u, p.nodes.get u = _ := fun u => by rw [g₄.nodes u, g₃.nodes u, g₂.nodes u, g₁.nodes u]
  simp only [Growth.source, Growth.fanOut, Growth.concat, Growth.attach, Growth.fed, List.mem_singleton,
    List.length_singleton, one_ne_zero, if_false, hnoop, Pipeline.new, PMap.get_empty, Option.map_none,
    Option.or_none] at hget
  have hsource : p.nodes.get f.source =
      some ((Processor.ofSource "source" (.generate (fun k => f.values[k]?))).setOutputPort f.forkQueue) := by
    simp [hget, hd.sink_source.symm, hd.concat_source.symm, hd.source_fork, hd.source_noop, Processor.setOut, forkQueue]
  have hfork : p.nodes.get f.fork = some {
      name := "fork"
      kind := .fork f.branches pos
      inputPort := some f.forkQueue
      outputs := Growth.branchQueues f.noopId f.size f.branches
      inputCount := 1 } := by
    simp [hget, hd.sink_fork.symm, hd.concat_fork.symm, hd.fork_noop, Processor.setOut, forkQueue]
  have hbranch : ∀ t b : Nat, f.order[t]? = some b → p.nodes.get (f.noopId b) =
      some ((Processor.noOp.setInputPort (f.branchQueue b)).setOutputPort (f.portQueue t)) := by
    intro t b ht
    have hmem : f.noopId b ∈ (List.range f.branches).map f.noopId :=
      List.mem_map.2 ⟨b, List.mem_range.2 ((f.mem_order b).1 (List.mem_of_getElem? ht)), rfl⟩
    have hne : ∀ {u : Id}, u ∉ (List.range f.branches).map f.noopId → f.noopId b ≠ u := fun hu he => hu (he ▸ hmem)
    rw [hget, if_neg (hne hd.sink_noop), if_neg (hne hd.concat_noop), if_neg (hne hd.concat_noop),
      if_neg (hne hd.fork_noop), if_pos hmem, if_pos hmem, f.lastIndex_order hd.noop ht]
    rfl
  have hconcat : p.nodes.get f.concat = some {
      name := "concat"
      kind := .concat (f.order.map f.noopId).length posL
      inputs := Growth.concatQueues f.concat f.size (f.order.map f.noopId).length
      outputPort := some f.sinkQueue } := by
    simp [hget, hd.sink_concat.symm, Processor.setOut, Processor.setOutputPort, sinkQueue]
  have hsink : p.nodes.get f.sink = some ((Processor.ofSink "sink" .consume).setInputPort f.sinkQueue) := by
    simp [hget, Processor.setInputPort, sinkQueue]
  have hlen : (f.order.map f.noopId).length = f.branches := by rw [List.length_map, f.length_order]
  refine ⟨pos, ⟨⟨_, hsource, ?_⟩, ⟨_, hfork, ?_⟩, fun t b ht => ⟨_, hbranch t b ht, ?_⟩, ⟨_, hconcat, ?_⟩,
    ⟨_, hsink, ?_⟩, fun u hu => ?_, ?_⟩⟩
  · refine ⟨rfl, fun i => ?_, fun o => ?_, fun h => absurd rfl h⟩
    · simp [Processor.inChan, Processor.ofSource, Processor.setOutputPort, Kind.isMultiIn]
    · cases o <;> rfl
  · refine ⟨rfl, fun i => ?_, fun o => ?_, fun _ => rfl⟩
    · cases i <;> rfl
    · exact (Growth.branchQueues_join _ _ _ o).trans (by by_cases ho : o < f.branches <;> simp [ho, branchQueue])
  · refine ⟨rfl, fun i => ?_, fun o => ?_, fun _ => rfl⟩
    · cases i <;> rfl
    · cases o <;> rfl
  · refine ⟨?_, fun i => ?_, fun o => ?_, fun _ => rfl⟩
    · have hkind : ∀ {k : Nat} (h : 0 < k), k = f.branches → (Kind.concat k h : Kind V) = .concat f.branches pos := by
        rintro k h rfl
        rfl
      exact hkind posL hlen
    · exact (Growth.concatQueues_join _ _ _ i).trans (by rw [hlen]; by_cases hi : i < f.branches <;> simp [hi,
        portQueue])
    · cases o <;> rfl
  · refine ⟨rfl, fun i => ?_, fun o => ?_, fun _ => rfl⟩
    · cases i <;> rfl
    · simp [Processor.outChan, Processor.ofSink, Processor.setInputPort, Kind.isMultiOut]
  · rw [PMap.mem_keys, hget] at hu
    by_contra hno
    simp only [not_or, not_exists, not_and] at hno
    obtain ⟨h1, h2, h3, h4, h5⟩ := hno
    have h6 : u ∉ (List.range f.branches).map f.noopId := by
      intro hm
      obtain ⟨b, hb, rfl⟩ := List.mem_map.1 hm
      obtain ⟨t, -, ht⟩ := f.exists_port (List.mem_range.1 hb)
      exact h3 t b ht rfl
    simp only [h1, h2, h4, h5, h6, if_false] at hu
    cases hu
  · ext u
    rw [g₄.leaves, hl]
    by_cases hu : u = f.concat <;> simp [Growth.attach, hu]

end ForkConcat

/-! ## The processors in a state -/

/-- A processor of a class between given queues, and where it stands in a run without exceptions. -/
structure Part (p : Pipeline V) (s : State V) (u : Id) (kind : Kind V) (ins outs : List Queue) (n : Processor V)
    (x : Proc V) : Prop where
  get : p.nodes.get u = some n
  is : n.Is kind ins outs
  proc : s.procs u = some x
  inv : x.Inv n
  flow : x.Flow n
  inOrder : x.InOrder
  quiet : x.ctl.hosted = false

section parts

variable {p : Pipeline V} {U : Finset Id} {pre : UserChannel → List (Option V)} {s : State V} (hnet : Network p U)
  (hp : p.Pure) (hs : (p.start pre 0).Runs s)
include hnet hp hs

/-- A processor of the pipeline in a state. -/
theorem Network.part {u : Id} {n : Processor V} {kind : Kind V} {ins outs : List Queue} (hn : p.nodes.get u = some n)
    (his : n.Is kind ins outs) : ∃ x, Part p s u kind ins outs n x := by
  obtain ⟨x, hx, hinv⟩ := (hnet.running hs.reaches).proc hn
  have hquiet := (hnet.calm hp hs).quiet u x hx
  exact ⟨x, hn, his, hx, hinv, hnet.flow hs.reaches hn hx hquiet, hnet.inOrder hp hs.reaches hx, hquiet⟩

omit hp in
/-- Between two processors: what one has put is what the other has taken and what is in the queue. -/
theorem Part.link {u v : Id} {ku kv : Kind V} {iu ou iv ov : List Queue} {n m : Processor V} {x y : Proc V}
    (a : Part p s u ku iu ou n x) (b : Part p s v kv iv ov m y) {o i : Nat} {q : Queue} (ho : ou[o]? = some q)
    (hi : iv[i]? = some q) (hq : q.isLink = true) : x.put o = y.taken i ++ (s.queues q).content :=
  (hnet.running hs.reaches).single_writer hnet a.get a.proc ((a.is.outChan_eq o).trans ho) b.get b.proc
    ((b.is.inChan_eq i).trans hi) hq
    (b.is.need_eq (by rintro rfl; cases hi))

end parts

namespace Part

variable {p : Pipeline V} {s : State V} {u : Id} {kind : Kind V} {ins outs : List Queue} {n : Processor V} {x : Proc V}

/-- A processor with one input that passes every value on: it holds at most one element. -/
theorem holds (a : Part p s u kind ins outs n x) (hp : kind.Pure) (hn : kind.nin = 1) (hi : ins ≠ [])
    (hk : kind.isSink = false) {o : Nat} (ho : o < kind.nout) (hc : ∀ v, streamOf (kind.onValue [] v) o = [v]) :
    (x.taken 0).length ≤ (x.put o).length + 1 := by
  have hkind := a.is.kind_eq
  subst hkind
  exact Proc.copier_holds a.inv a.flow a.inOrder a.quiet hp hn (a.is.need_eq hi) hk ho hc

/-- When nobody can go on, a processor before an empty queue that has not ended it waits for an input. -/
theorem waits_pop {q : Queue} (a : Part p s u kind ins [q] n x) (hS : Standstill s) (hk : kind.nout = 1)
    (hopen : eofs (x.put 0) = 0) (hempty : (s.queues q).content = []) (hcap : 1 ≤ q.capacity) :
    ∃ i r, ins[i]? = some r ∧ s.WaitsPop x i r := by
  have hnout : n.kind.nout = 1 := by rw [a.is.kind_eq, hk]
  rcases hS.waits u x a.proc with hf | ⟨i, r, hwait⟩ | ⟨o, r, ⟨v, hpush⟩, hfull⟩
  · have := ((a.inv.finished hf).2 0 (by omega)).eofs_eq
    omega
  · obtain ⟨-, -, hr⟩ := a.inv.pop_port hwait.1
    exact ⟨i, r, (a.is.inChan_eq i).symm.trans hr, hwait⟩
  · obtain ⟨-, -, hr⟩ := a.inv.push_port hpush
    rw [a.is.outChan_eq] at hr
    cases List.mem_singleton.1 (List.mem_of_getElem? hr)
    rw [hempty, List.length_nil] at hfull
    omega

/-- When nobody can go on, a processor behind a queue with elements and an end still to come waits for an output. -/
theorem waits_push {r : Queue} (a : Part p s u kind [r] outs n x) (hS : Standstill s) (hk : kind.nin = 1)
    (hopen : eofs (x.taken 0) = 0) (hfull : (s.queues r).content ≠ []) :
    ∃ o q, outs[o]? = some q ∧ s.WaitsPush x o q := by
  have hnin : n.kind.nin = 1 := by rw [a.is.kind_eq, hk]
  rcases hS.waits u x a.proc with hf | ⟨i, q, hwait⟩ | ⟨o, q, hwait⟩
  · have := (a.inv.finished hf).1 0 (by omega)
    rw [a.is.need_eq (by simp)] at this
    omega
  · obtain ⟨-, -, hq⟩ := a.inv.pop_port hwait.1
    rw [a.is.inChan_eq] at hq
    cases List.mem_singleton.1 (List.mem_of_getElem? hq)
    exact absurd hwait.2 hfull
  · obtain ⟨v, hpush⟩ := hwait.1
    obtain ⟨-, -, hq⟩ := a.inv.push_port hpush
    exact ⟨o, q, (a.is.outChan_eq o).symm.trans hq, hwait⟩

/-- Where a processor that is no sink stands when it pushes. -/
theorem push_ctl (a : Part p s u kind ins outs n x) (hk : kind.isChannelSink = false) {o : Nat} {q : Queue}
    {v : Option V} (h : x.action = .push o q v) : ∃ rest next, x.ctl = .push o v rest next := by
  obtain ⟨-, hc | ⟨-, hsink, -, -⟩ | ⟨c, hc, -, -⟩⟩ := Proc.action_push h
  · exact hc
  · rw [a.inv.kind, a.is.kind_eq, hk] at hsink
    cases hsink
  · have := a.quiet
    rw [hc] at this
    cases this

end Part

namespace ForkConcat

variable {f : ForkConcat V} {p : Pipeline V} {U : Finset Id} {pos : 0 < f.branches}

theorem getElem?_single {q r : Queue} {i : Nat} (h : [r][i]? = some q) : i = 0 ∧ q = r := by
  obtain ⟨hlt, -⟩ := List.getElem?_eq_some_iff.1 h
  exact ⟨by simpa using hlt, List.mem_singleton.1 (List.mem_of_getElem? h)⟩

theorem getElem?_queues (g : Nat → Queue) {m t : Nat} (h : t < m) :
    ((List.range m).map g)[t]? = some (g t) := by simp [h]

theorem noOp_copies (v : V) : streamOf ((Kind.transform .noOp).onValue [] v) 0 = [v] := rfl

/-- The fork copies to every branch. -/
theorem fork_copies (pos : 0 < f.branches) {b : Nat} (hb : b < f.branches) (v : V) :
    streamOf ((Kind.fork f.branches pos).onValue [] v) b = [v] := streamOf_copies v hb

/-- Every processor of the pipeline is of a class without state, generates finitely many values if it is a source, and
reads queues of the pipeline's size; one of them has several inputs. -/
theorem Layout.is (hl : f.Layout p pos) {u : Id} {n : Processor V} (hn : p.nodes.get u = some n) :
    n.kind.Pure ∧ (∀ g, n.kind = .source (.generate g) → ∃ k, g k = none) ∧
    (∀ i q, n.inChan i = some q → q.capacity = f.size) ∧
      (n.kind.isMultiIn = true → u = f.concat) := by
  have hmake : ∀ {kind : Kind V} {ins outs : List Queue} {m : Processor V}, p.nodes.get u = some m →
      m.Is kind ins outs → kind.Pure → (∀ g, kind = .source (.generate g) → ∃ k, g k = none) →
      (∀ q ∈ ins, q.capacity = f.size) → (kind.isMultiIn = true → u = f.concat) → n.kind.Pure ∧
      (∀ g, n.kind = .source (.generate g) → ∃ k, g k = none) ∧ (∀ i q, n.inChan i = some q → q.capacity = f.size) ∧
        (n.kind.isMultiIn = true → u = f.concat) := by
    intro kind ins outs m hm his hpure hfin hsize hmulti
    cases hn.symm.trans hm
    rw [his.kind_eq]
    exact ⟨hpure, hfin, fun i q hi => hsize q (List.mem_of_getElem? (his.inChan_eq i ▸ hi)), hmulti⟩
  rcases hl.only u (PMap.mem_keys_of_get hn) with rfl | rfl | ⟨t, b, ht, rfl⟩ | rfl | rfl
  · obtain ⟨m, hm, his⟩ := hl.source
    refine hmake hm his trivial (fun g hg => ⟨f.values.length, ?_⟩) (by simp) (fun h => by cases h)
    cases hg
    exact List.getElem?_eq_none (Nat.le_refl _)
  · obtain ⟨m, hm, his⟩ := hl.fork
    exact hmake hm his trivial (fun _ hg => by cases hg) (by simp [forkQueue, Queue.capacity]) (fun h => by cases h)
  · obtain ⟨m, hm, his⟩ := hl.noop t b ht
    exact hmake hm his trivial (fun _ hg => by cases hg) (by simp [branchQueue, Queue.capacity]) (fun h => by cases h)
  · obtain ⟨m, hm, his⟩ := hl.concat
    exact hmake hm his trivial (fun _ hg => by cases hg) (by simp [portQueue, Queue.capacity]) (fun _ => rfl)
  · obtain ⟨m, hm, his⟩ := hl.sink
    exact hmake hm his trivial (fun _ hg => by cases hg) (by simp [sinkQueue, Queue.capacity]) (fun h => by cases h)

/-- No class of it has state. -/
theorem Layout.pure (hl : f.Layout p pos) : p.Pure := fun _ _ hn => (hl.is hn).1

/-! ## What the source and the fork have done -/

theorem filterMap_getElem? (l : List V) (k : Nat) : (List.range k).filterMap (fun i => l[i]?) = l.take k := by
  induction k with
  | zero => rfl
  | succ k ih =>
    rw [List.range_succ, List.filterMap_append, ih, List.take_add_one]
    cases hk : l[k]? <;> simp [hk]

/-- The source has put values of the list, and all of them before the EOF. -/
theorem source_values {s : State V} {n : Processor V} {x : Proc V}
    (S : Part p s f.source (.source (.generate (fun k => f.values[k]?))) [] [f.forkQueue] n x) :
    (x.put 0).reduceOption.length ≤ f.values.length ∧ (eofs (x.put 0) ≠ 0 → (x.put 0).reduceOption = f.values) := by
  have hk := S.is.kind_eq
  have hout : 0 < n.kind.nout := by rw [hk]; exact Nat.one_pos
  have hputs := S.flow.puts 0 hout
  rw [hk, Kind.produced, filterMap_getElem?] at hputs
  refine ⟨?_, fun heof => ?_⟩
  · have hlen := congrArg List.length hputs
    rw [List.length_append, List.length_take] at hlen
    omega
  · rcases S.inv.eofs_put S.quiet (by rw [hk]; rfl) hout with ⟨h0, -⟩ | ⟨-, hclosing, htodo⟩
    · exact absurd h0 heof
    · have hgen := S.flow.source _ hk
      rw [Generating, hclosing, if_pos rfl] at hgen
      obtain ⟨m, hm, hnone, -⟩ := hgen
      rw [htodo, List.reduceOption_nil, List.append_nil, hm, List.take_of_length_le] at hputs
      · exact hputs
      · exact Nat.le_succ_of_le (List.getElem?_eq_none_iff.1 hnone)

section run

variable {pre : UserChannel → List (Option V)} {s : State V} {ns nf nn nc : Processor V} {xs xf xn xc : Proc V}
  (hnet : Network p U) (hs : (p.start pre 0).Runs s)
  (S : Part p s f.source (.source (.generate (fun k => f.values[k]?))) [] [f.forkQueue] ns xs)
  (F : Part p s f.fork (.fork f.branches pos) [f.forkQueue] ((List.range f.branches).map f.branchQueue) nf xf)
  (C : Part p s f.concat (.concat f.branches pos) ((List.range f.branches).map f.portQueue) [f.sinkQueue] nc xc)

include hnet hs S F in
/-- The fork has handled no more than the source generates. -/
theorem fork_calls : xf.calls.length ≤ f.values.length := by
  have hlink := congrArg List.reduceOption (S.link hnet hs F (o := 0) (i := 0) rfl rfl rfl)
  rw [List.reduceOption_append, F.flow.taken_values (by rw [F.is.kind_eq]; rfl)] at hlink
  have hlen := congrArg List.length hlink
  have := (source_values S).1
  simp only [List.length_append] at hlen
  omega

include hnet hs S F in
/-- Once it closes, it has handled all of it. -/
theorem fork_closing (h : xf.ctl.closing = true) : xf.calls = f.values := by
  have hkind := F.is.kind_eq
  have hnin : nf.kind.nin = 1 := by rw [hkind]; rfl
  have hpos := Ctl.position_of_closing h 1
  have heofs := F.inv.eofs_taken F.quiet hnin (F.is.need_eq (by simp))
  rw [hpos, if_neg one_ne_zero] at heofs
  have hlink := S.link hnet hs F (o := 0) (i := 0) rfl rfl rfl
  have hput : eofs (xs.put 0) ≠ 0 := by
    rw [hlink, eofs_append]
    omega
  have hout : 0 < ns.kind.nout := by rw [S.is.kind_eq]; exact Nat.one_pos
  have hended : Ended (xs.put 0) := by
    rcases S.inv.values_or_ended hout with hv | he
    · exact absurd hv.eofs_eq hput
    · exact he
  have hnil : (s.queues f.forkQueue).content = [] := (hlink ▸ hended).eq_nil (by omega)
  have hvalues := (source_values S).2 hput
  rw [hlink, hnil, List.append_nil, F.flow.taken_values hnin, (F.inv.after_eof F.quiet hnin (by omega)).1,
    List.append_nil] at hvalues
  exact hvalues

include hnet hs F C in
/-- A branch that the `Concat` has not come to holds no more than two queues and one element. -/
theorem unread_le {t k j : Nat} (N : Part p s (f.noopId j) (.transform .noOp) [f.branchQueue j] [f.portQueue k] nn xn)
    (hj : j < f.branches) (hk : k < f.branches) (htk : t < k) (hopen : eofs (xc.taken t) = 0) :
    (xf.put j).length ≤ 2 * f.size + 1 := by
  have hbranch := congrArg List.length (F.link hnet hs N (getElem?_queues _ hj) (i := 0) rfl rfl)
  have hport := congrArg List.length (N.link hnet hs C (o := 0) rfl (getElem?_queues _ hk) rfl)
  have hunread : xc.taken k = [] := by
    refine Proc.concat_unread C.inv C.flow C.quiet (by rw [C.is.kind_eq]; rfl) (t := t) ?_ htk ?_
    · rw [C.is.kind_eq]
      exact Nat.lt_trans htk hk
    · rw [C.is.need_eq (by simp; omega), hopen]
      exact Nat.one_pos
  have hholds := N.holds trivial rfl (by simp) rfl Nat.one_pos noOp_copies
  have hb1 := bounded (q := f.branchQueue j) hs.reaches rfl
  have hb2 := bounded (q := f.portQueue k) hs.reaches rfl
  rw [hunread] at hport
  simp only [List.length_append, List.length_nil, branchQueue, portQueue, Queue.capacity] at hbranch hport hb1 hb2
  omega

/-- A `NoOpTransform` puts no EOF before it has taken one. -/
theorem noOp_open {b t : Nat} (N : Part p s (f.noopId b) (.transform .noOp) [f.branchQueue b] [f.portQueue t] nn xn)
    (h : eofs (xn.taken 0) = 0) : eofs (xn.put 0) = 0 := by
  have hkind := N.is.kind_eq
  have htaken := N.inv.eofs_taken N.quiet (by rw [hkind]; rfl) (N.is.need_eq (by simp))
  rcases N.inv.eofs_put N.quiet (by rw [hkind]; rfl) (o := 0) (by rw [hkind]; exact Nat.one_pos) with ⟨h0, -⟩ | ⟨-,
    hclosing, -⟩
  · exact h0
  · rw [Ctl.position_of_closing hclosing, if_neg one_ne_zero] at htaken
    omega

include hnet hs S F C in
/-- The fork gets to put its EOF on a branch only if the branches behind it have room for what comes before. -/
theorem eof_room {t k b j : Nat} {nb : Processor V} {xb : Proc V}
    (B : Part p s (f.noopId b) (.transform .noOp) [f.branchQueue b] [f.portQueue t] nb xb)
    (N : Part p s (f.noopId j) (.transform .noOp) [f.branchQueue j] [f.portQueue k] nn xn) (hb : b < f.branches)
    (hj : j < f.branches) (hk : k < f.branches) (htk : t < k) {rest : List (Nat × Option V)} {next : Next}
    (hctl : xf.ctl = .push b none rest next) :
    f.values.length + (if j < b then 1 else 0) ≤ 2 * f.size + 1 := by
  have hkind := F.is.kind_eq
  have hpure : nf.kind.Pure := by rw [hkind]; trivial
  have hout : j < nf.kind.nout := by rw [hkind]; exact hj
  have hstand := F.inv.standing
  rw [hctl] at hstand
  have hclosing : xf.ctl.closing = true := by
    rw [hctl, F.inv.next_eq_ret hctl]
    rfl
  -- the branch is open up to the `Concat`
  have hopen : eofs (xc.taken t) = 0 := by
    have hput := hstand.head.2.values.eofs_eq
    rw [F.link hnet hs B (getElem?_queues _ hb) (i := 0) rfl rfl, eofs_append] at hput
    have hnoop := noOp_open B (by omega)
    rw [B.link hnet hs C (o := 0) rfl (getElem?_queues _ (Nat.lt_trans htk hk)) rfl, eofs_append] at hnoop
    omega
  have hle := unread_le hnet hs F C N hj hk htk hopen
  have hcopies := congrArg List.length
    (F.flow.copies hpure (by rw [hkind]; rfl) hout (by rw [hkind]; exact fork_copies pos hj))
  rw [fork_closing hnet hs S F hclosing, List.length_append] at hcopies
  rw [length_eq_values_add_eofs] at hle
  rcases F.inv.eofs_put F.quiet (by rw [hkind]; rfl) hout with ⟨-, hend⟩ | ⟨h1, -, htodo⟩
  · have hended := hend hclosing
    have hone := F.inOrder.length_le j
    rw [length_eq_values_add_eofs, hended.eofs_eq] at hone
    split
    · rename_i hjb
      rw [F.inOrder.eq_nil hctl hjb] at hended
      exact absurd hended.eofs_eq (by simp)
    · omega
  · rw [htodo, List.reduceOption_nil, List.length_nil] at hcopies
    split <;> omega

end run

/-! ## When the branches are too short -/

/-- A branch in a state. -/
theorem Layout.branch_part (hl : f.Layout p pos) (hnet : Network p U) {pre : UserChannel → List (Option V)}
    {s : State V} (hs : (p.start pre 0).Runs s) {t b : Nat} (ht : f.order[t]? = some b) :
    ∃ n x, Part p s (f.noopId b) (.transform .noOp) [f.branchQueue b] [f.portQueue t] n x := by
  obtain ⟨n, hn, his⟩ := hl.noop t b ht
  exact ⟨n, hnet.part hl.pure hs hn his⟩

theorem port_lt {t b : Nat} (ht : f.order[t]? = some b) : t < f.branches ∧ b < f.branches := by
  obtain ⟨hlt, -⟩ := List.getElem?_eq_some_iff.1 ht
  exact ⟨f.length_order ▸ hlt, (f.mem_order b).1 (List.mem_of_getElem? ht)⟩

/-- When a branch has no room for what the fork writes there before it ends another, which is read first, that one is
never ended. -/
theorem Layout.never_ended (hl : f.Layout p pos) (hnet : Network p U) {t k b j : Nat} (ht : f.order[t]? = some b)
    (hk : f.order[k]? = some j) (htk : t < k) (hlong : 2 * f.size + 1 < f.values.length + (if j < b then 1 else 0))
    {pre : UserChannel → List (Option V)} {s : State V} (hs : (p.start pre 0).Runs s) {x : Proc V}
    (hx : s.procs f.fork = some x) :
    eofs (x.put b) = 0 := by
  obtain ⟨ns, hns, hsi⟩ := hl.source
  obtain ⟨nf, hnf, hfi⟩ := hl.fork
  obtain ⟨nc, hnc, hci⟩ := hl.concat
  induction hs generalizing x with
  | refl =>
    obtain ⟨n, -, rfl⟩ := Option.map_eq_some_iff.1 hx
    rfl
  | @tail a c hrun hstep ih =>
    obtain ⟨u, hu⟩ := hstep
    rcases (State.step_iff.1 hu).2.turn hx with hx | ⟨y, hy, hturn⟩
    · exact ih hx
    · rcases hturn.put with hput | ⟨o, q, v, ha, hput⟩
      · rw [hput]
        exact ih hy
      · rw [hput]
        by_cases hob : b = o
        · subst hob
          rw [Ports.put_give, eofs_append, ih hy]
          cases v with
          | some a => rfl
          | none =>
            -- before its EOF on the branch the fork has written everything to the other
            obtain ⟨xs, S⟩ := hnet.part hl.pure hrun hns hsi
            obtain ⟨xf, F⟩ := hnet.part hl.pure hrun hnf hfi
            obtain ⟨xc, C⟩ := hnet.part hl.pure hrun hnc hci
            obtain ⟨nb, xb, B⟩ := hl.branch_part hnet hrun ht
            obtain ⟨nn, xn, N⟩ := hl.branch_part hnet hrun hk
            cases hy.symm.trans F.proc
            obtain ⟨rest, next, hctl⟩ := F.push_ctl rfl ha
            have := eof_room hnet hrun S F C B N (port_lt ht).2 (port_lt hk).2 (port_lt hk).1 htk hctl
            omega
        · rw [Ports.put_give_ne _ _ hob]
          exact ih hy

/-- Then some run comes to a standstill before all have finished. -/
theorem Layout.gets_stuck (hl : f.Layout p pos) (hnet : Network p U) {t k b j : Nat} (ht : f.order[t]? = some b)
    (hk : f.order[k]? = some j) (htk : t < k) (hlong : 2 * f.size + 1 < f.values.length + (if j < b then 1 else 0))
    (pre : UserChannel → List (Option V)) : ∃ s, (p.start pre 0).Runs s ∧ (∀ u, s.canStep u = false) ∧
    ¬s.Completed := by
  obtain ⟨s, hs, hstuck⟩ := hnet.run_ends hl.pure (fun u n g hn hg => (hl.is hn).2.1 g hg) (s := p.start pre 0) .refl
  refine ⟨s, hs, hstuck, fun hc => ?_⟩
  obtain ⟨nf, hnf, hfi⟩ := hl.fork
  obtain ⟨xf, F⟩ := hnet.part hl.pure hs hnf hfi
  have hended := (F.inv.finished (hc.finished _ _ F.proc)).2 b (by rw [hfi.kind_eq]; exact (port_lt ht).2)
  have hopen := hl.never_ended hnet ht hk htk hlong hs F.proc
  rw [hended.eofs_eq] at hopen
  cases hopen

/-! ## When they are long enough -/

section standstill

variable {pre : UserChannel → List (Option V)} {s : State V} {ns nf nb nc : Processor V} {xs xf xb xc : Proc V}
  (hnet : Network p U) (hs : (p.start pre 0).Runs s) (hS : Standstill s)
  (S : Part p s f.source (.source (.generate (fun k => f.values[k]?))) [] [f.forkQueue] ns xs)
  (F : Part p s f.fork (.fork f.branches pos) [f.forkQueue] ((List.range f.branches).map f.branchQueue) nf xf)
  (C : Part p s f.concat (.concat f.branches pos) ((List.range f.branches).map f.portQueue) [f.sinkQueue] nc xc)
include hnet hs hS F

include C in
/-- When the `Concat` waits for an input, the fork has not ended that branch, and the branch is empty. -/
theorem branch_waits {t b : Nat} (B : Part p s (f.noopId b) (.transform .noOp) [f.branchQueue b] [f.portQueue t] nb xb)
    (ht : t < f.branches) (hb : b < f.branches) (hopen : eofs (xc.taken t) = 0)
    (hempty : (s.queues (f.portQueue t)).content = []) :
    eofs (xf.put b) = 0 ∧ (s.queues (f.branchQueue b)).content = [] := by
  have hport := B.link hnet hs C (o := 0) rfl (getElem?_queues _ ht) rfl
  rw [hempty, List.append_nil] at hport
  obtain ⟨i, r, hi, hwait⟩ := B.waits_pop hS rfl (by rw [hport, hopen]) hempty f.room
  obtain ⟨rfl, rfl⟩ := getElem?_single hi
  obtain ⟨-, hin, -⟩ := B.inv.pop_port hwait.1
  have hlt := hin.lt
  rw [B.is.need_eq (by simp)] at hlt
  have hlink := F.link hnet hs B (getElem?_queues _ hb) (i := 0) rfl rfl
  rw [hwait.2, List.append_nil] at hlink
  exact ⟨by rw [hlink]; omega, hwait.2⟩

include S in
/-- The fork does not wait for its input: the source would go on. So it waits to push. -/
theorem fork_pushes {b : Nat} (hb : b < f.branches) (hopen : eofs (xf.put b) = 0) :
    ∃ j < f.branches, s.WaitsPush xf j (f.branchQueue j) := by
  have hkind := F.is.kind_eq
  rcases hS.waits _ _ F.proc with hf | ⟨i, q, hwait⟩ | ⟨j, q, hwait⟩
  · have := ((F.inv.finished hf).2 b (by rw [hkind]; exact hb)).eofs_eq
    omega
  · obtain ⟨-, hin, hq⟩ := F.inv.pop_port hwait.1
    rw [F.is.inChan_eq] at hq
    obtain ⟨rfl, rfl⟩ := getElem?_single hq
    have hlt := hin.lt
    rw [F.is.need_eq (by simp)] at hlt
    have hlink := S.link hnet hs F (o := 0) (i := 0) rfl rfl rfl
    rw [hwait.2, List.append_nil] at hlink
    obtain ⟨i, r, hi, -⟩ := S.waits_pop hS rfl (by rw [hlink]; omega) hwait.2 f.room
    simp at hi
  · obtain ⟨v, hpush⟩ := hwait.1
    obtain ⟨hj, -, hq⟩ := F.inv.push_port hpush
    rw [hkind] at hj
    change j < f.branches at hj
    rw [F.is.outChan_eq, getElem?_queues _ hj] at hq
    cases hq
    exact ⟨j, hj, hwait⟩

include C in
/-- A branch the fork waits to push to is full up to the `Concat`, which has not come to it. -/
theorem branch_full {t k j : Nat} {nn : Processor V} {xn : Proc V}
    (N : Part p s (f.noopId j) (.transform .noOp) [f.branchQueue j] [f.portQueue k] nn xn) (hj : j < f.branches)
    (hk : k < f.branches) (hne : k ≠ t) {q : Queue} (hpop : xc.action = .pop t q)
    (hwait : s.WaitsPush xf j (f.branchQueue j)) :
    t < k ∧ 2 * f.size + 1 ≤ (xf.put j).length := by
  have hsize : 1 ≤ f.size := f.room
  obtain ⟨⟨v, hpush⟩, hfull⟩ := hwait
  have hopen := (F.inv.push_port hpush).2.1.values.eofs_eq
  have hbranch := F.link hnet hs N (getElem?_queues _ hj) (i := 0) rfl rfl
  have hnoop : eofs (xn.taken 0) = 0 := by
    rw [hbranch, eofs_append] at hopen
    omega
  change f.size ≤ _ at hfull
  have hnonempty : (s.queues (f.branchQueue j)).content ≠ [] := by
    intro hnil
    rw [hnil, List.length_nil] at hfull
    omega
  obtain ⟨o, r, ho, ⟨w, hpush'⟩, hfull'⟩ := N.waits_push hS rfl hnoop hnonempty
  obtain ⟨rfl, rfl⟩ := getElem?_single ho
  have hport := N.link hnet hs C (o := 0) rfl (getElem?_queues _ hk) rfl
  have hcneed := C.is.need_eq (by simp; omega)
  obtain ⟨ht, hin, -⟩ := C.inv.pop_port hpop
  have hct : xc.ctl = .pop t := by
    obtain ⟨-, hc | ⟨c, hc, -⟩⟩ := Proc.action_pop hpop
    · exact hc
    · have := C.quiet
      rw [hc] at this
      cases this
  have htk : t < k := by
    by_contra hle
    have hshut := (C.inv.position C.quiet).1 k (by rw [C.is.kind_eq]; exact hk)
      (by rw [hct]; simp only [Ctl.position]; omega)
    have hvalues := (N.inv.push_port hpush').2.1.values.eofs_eq
    rw [hport, eofs_append, hshut, hcneed] at hvalues
    omega
  have hlt := hin.lt
  have hunread : xc.taken k = [] := Proc.concat_unread C.inv C.flow C.quiet (by rw [C.is.kind_eq]; rfl) ht htk hlt
  obtain ⟨rest, next, hctl⟩ := N.push_ctl rfl hpush'
  have hkind := N.is.kind_eq
  have hholds := Proc.copier_pushes N.inv N.flow N.quiet (by rw [hkind]; trivial) (by rw [hkind]; rfl)
    (N.is.need_eq (by simp)) (o := 0) (by rw [hkind]; exact Nat.one_pos) (by rw [hkind]; exact noOp_copies) hctl
  change f.size ≤ _ at hfull'
  refine ⟨htk, ?_⟩
  rw [hport, hunread, List.nil_append] at hholds
  rw [hbranch, List.length_append]
  omega

end standstill

/-- There is one branch, or the branches hold all values, or all values but not an EOF and are read in the order they
are written. -/
def Fits (f : ForkConcat V) : Prop :=
  f.branches = 1 ∨ f.values.length ≤ 2 * f.size ∨ (f.values.length = 2 * f.size + 1 ∧ f.order = List.range f.branches)

/-- Then the `Concat` does not wait forever. -/
theorem Layout.concat_goes_on (hl : f.Layout p pos) (hnet : Network p U) {pre : UserChannel → List (Option V)}
    {s : State V} (hs : (p.start pre 0).Runs s) (hS : Standstill s) (hfit : f.Fits) {xc : Proc V}
    (hxc : s.procs f.concat = some xc) {t : Nat} {q : Queue} :
    ¬s.WaitsPop xc t q := by
  intro hwait
  obtain ⟨ns, hns, hsi⟩ := hl.source
  obtain ⟨nf, hnf, hfi⟩ := hl.fork
  obtain ⟨nc, hnc, hci⟩ := hl.concat
  obtain ⟨xs, S⟩ := hnet.part hl.pure hs hns hsi
  obtain ⟨xf, F⟩ := hnet.part hl.pure hs hnf hfi
  obtain ⟨xc', C⟩ := hnet.part hl.pure hs hnc hci
  cases hxc.symm.trans C.proc
  obtain ⟨ht, hin, hq⟩ := C.inv.pop_port hwait.1
  rw [hci.kind_eq] at ht
  change t < f.branches at ht
  rw [hci.inChan_eq, getElem?_queues _ ht] at hq
  cases hq
  have hlt := hin.lt
  rw [hci.need_eq (by simp; omega)] at hlt
  obtain ⟨b, hb, htb⟩ := f.exists_branch ht
  obtain ⟨nb, xb, B⟩ := hl.branch_part hnet hs htb
  obtain ⟨hopen, hempty⟩ := branch_waits hnet hs hS F C B ht hb (by omega) hwait.2
  obtain ⟨j, hj, hpush⟩ := fork_pushes hnet hs hS S F hb hopen
  obtain ⟨k, hk, hkj⟩ := f.exists_port hj
  obtain ⟨nn, xn, N⟩ := hl.branch_part hnet hs hkj
  have hjb : j ≠ b := by
    rintro rfl
    have := hpush.2
    rw [hempty] at this
    exact absurd f.room (Nat.not_le_of_lt (Nat.lt_succ_of_le this))
  have hkt : k ≠ t := by
    rintro rfl
    exact hjb (Option.some.inj (hkj.symm.trans htb))
  obtain ⟨htk, hlen⟩ := branch_full hnet hs hS F C N hj hk hkt hwait.1 hpush
  -- the fork has as many values, and more if it is not at its EOF
  obtain ⟨⟨v, ha⟩, -⟩ := hpush
  obtain ⟨rest, next, hctl⟩ := F.push_ctl rfl ha
  have hkind := hfi.kind_eq
  have hpure : nf.kind.Pure := by rw [hkind]; trivial
  have hcopies := congrArg List.length (F.flow.copies hpure (by rw [hkind]; rfl) (by rw [hkind]; exact hj)
    (by rw [hkind]; exact fork_copies pos hj))
  have hcalls := fork_calls hnet hs S F
  have hvalues := (F.inv.push_port ha).2.1.values.eofs_eq
  rw [length_eq_values_add_eofs, hvalues] at hlen
  rw [List.length_append, hctl, Ctl.todo, streamOf_cons_self] at hcopies
  rcases hfit with hone | hshort | ⟨hexact, horder⟩
  · omega
  · omega
  · cases v with
    | some a =>
      rw [List.reduceOption_cons_of_some, List.length_cons] at hcopies
      omega
    | none =>
      -- the branches are read in the order in which they are ended
      rw [horder, List.getElem?_range ht] at htb
      rw [horder, List.getElem?_range hk] at hkj
      obtain rfl := Option.some.inj htb
      obtain rfl := Option.some.inj hkj
      have hclosing : xf.ctl.closing = true := by
        rw [hctl, F.inv.next_eq_ret hctl]
        rfl
      rcases F.inv.eofs_put F.quiet (by rw [hkind]; rfl) (o := t) (by rw [hkind]; exact hb) with ⟨-, hend⟩ | ⟨h1, -, -⟩
      · have hended := hend hclosing
        rw [F.inOrder.eq_nil hctl htk] at hended
        exact absurd hended.eofs_eq (by simp)
      · omega

/-! ## What the sink consumes -/

section completed

variable {pre : UserChannel → List (Option V)} {s : State V} (hnet : Network p U) (hs : (p.start pre 0).Runs s)
  (hc : s.Completed)
include hnet hs hc

/-- At the end of a run everything that was put was taken. -/
theorem put_eq_taken {u v : Id} {ku kv : Kind V} {iu ou iv ov : List Queue} {n m : Processor V} {x y : Proc V}
    (a : Part p s u ku iu ou n x) (b : Part p s v kv iv ov m y) {o i : Nat} {q : Queue} (ho : ou[o]? = some q)
    (hi : iv[i]? = some q) (hq : q.isLink = true) : x.put o = y.taken i := by
  have hlink := a.link hnet hs b ho hi hq
  rwa [(hnet.running hs.reaches).content_eq_nil hnet hc.finished hq, List.append_nil] at hlink

omit hnet hs in
/-- What a processor that passes its input on has put is what it handled. -/
theorem put_values {u : Id} {kind : Kind V} {ins outs : List Queue} {n : Processor V} {x : Proc V}
    (a : Part p s u kind ins outs n x) (hp : kind.Pure) (hg : kind.generates = false) {o : Nat} (ho : o < kind.nout)
    (hcopy : ∀ v, streamOf (kind.onValue [] v) o = [v]) :
    (x.put o).reduceOption = x.calls := by
  have hkind := a.is.kind_eq
  subst hkind
  have hcopies := a.flow.copies hp hg ho hcopy
  have htodo : x.ctl.todo = [] := by rw [hc u x a.proc]; rfl
  rwa [htodo, streamOf_nil, List.reduceOption_nil, List.append_nil] at hcopies

omit hnet hs in
/-- What a processor has handled is what it took. -/
theorem calls_reads {u : Id} {kind : Kind V} {ins outs : List Queue} {n : Processor V} {x : Proc V}
    (a : Part p s u kind ins outs n x) :
    x.calls = Ports.reads x.toPorts kind.nin := by
  have hreads := a.flow.reads
  have hhand : x.ctl.inHand = [] := by rw [hc u x a.proc]; rfl
  rwa [hhand, List.append_nil, a.is.kind_eq] at hreads

/-- The sink consumes all values, once for each branch. -/
theorem Layout.sink_calls (hl : f.Layout p pos) :
    ∃ x, s.procs f.sink = some x ∧ x.calls = (List.replicate f.branches f.values).flatten := by
  obtain ⟨ns, hns, hsi⟩ := hl.source
  obtain ⟨nf, hnf, hfi⟩ := hl.fork
  obtain ⟨nc, hnc, hci⟩ := hl.concat
  obtain ⟨nk, hnk, hki⟩ := hl.sink
  obtain ⟨xs, S⟩ := hnet.part hl.pure hs hns hsi
  obtain ⟨xf, F⟩ := hnet.part hl.pure hs hnf hfi
  obtain ⟨xc, C⟩ := hnet.part hl.pure hs hnc hci
  obtain ⟨xk, K⟩ := hnet.part hl.pure hs hnk hki
  have hfork : xf.calls = f.values := fork_closing hnet hs S F (by rw [hc _ _ F.proc]; rfl)
  have hport : ∀ t < f.branches, (xc.taken t).reduceOption = f.values := by
    intro t ht
    obtain ⟨b, hb, htb⟩ := f.exists_branch ht
    obtain ⟨nb, xb, B⟩ := hl.branch_part hnet hs htb
    rw [← put_eq_taken hnet hs hc B C (o := 0) rfl (getElem?_queues _ ht) rfl,
      put_values hc B trivial rfl Nat.one_pos noOp_copies, calls_reads hc B, Ports.reads]
    simp only [Kind.nin, List.range_one, List.flatMap_singleton]
    rw [← put_eq_taken hnet hs hc F B (getElem?_queues _ hb) (i := 0) rfl rfl,
      put_values hc F trivial rfl hb (fork_copies pos hb), hfork]
  refine ⟨xk, K.proc, ?_⟩
  rw [calls_reads hc K, Ports.reads]
  simp only [Kind.nin, List.range_one, List.flatMap_singleton]
  rw [← put_eq_taken hnet hs hc C K (o := 0) (i := 0) rfl rfl rfl,
    put_values hc C trivial rfl Nat.one_pos (fun v => rfl), calls_reads hc C, Ports.reads, Kind.nin,
    List.flatMap_congr (fun t ht => hport t (List.mem_range.1 ht))]
  simp [List.flatMap_def]

end completed

/-! ## The theorem -/

/-- If the branches do not fit, two of them are read in an order in which the later one overflows. -/
theorem exists_overflow (pos : 0 < f.branches) (h : ¬f.Fits) :
    ∃ t k b j : Nat, f.order[t]? = some b ∧ f.order[k]? = some j ∧ t < k ∧
    2 * f.size + 1 < f.values.length + (if j < b then 1 else 0) := by
  simp only [Fits, not_or, not_and] at h
  obtain ⟨hone, hlong, horder⟩ := h
  by_cases hexact : f.values.length = 2 * f.size + 1
  · have hsorted : ¬f.order.Pairwise (· ≤ ·) := fun hs =>
      horder hexact (f.perm.eq_of_pairwise (fun a b _ _ =>
        Nat.le_antisymm) hs (List.pairwise_lt_range.imp Nat.le_of_lt))
    rw [List.pairwise_iff_getElem] at hsorted
    push Not at hsorted
    obtain ⟨t, k, ht, hk, htk, hlt⟩ := hsorted
    refine ⟨t, k, f.order[t], f.order[k], List.getElem?_eq_getElem ht, List.getElem?_eq_getElem hk, htk, ?_⟩
    rw [if_pos hlt]
    omega
  · obtain ⟨b, -, hb⟩ := f.exists_branch (t := 0) pos
    obtain ⟨j, -, hj⟩ := f.exists_branch (t := 1) (by omega)
    exact ⟨0, 1, b, j, hb, hj, Nat.one_pos, by omega⟩

end ForkConcat

/-- `AddSource`, `ForkFrom`, `ConcatFrom` of the branches in an order, `SetSink`. In every state of every run some
processor can take a step or all have finished, if and only if there is one branch, or there are at most `2 *
channel_size` values, or one more and the branches are concatenated in their order. In a run that finishes the sink
consumes the values as often as there are branches. -/
theorem fork_concat {f : ForkConcat V} {p : Pipeline V} {U : Finset Id}
    (hb : build Call.Proper f.calls (.new f.option, ∅) = some (p, U)) (pre : UserChannel → List (Option V)) :
    ((∀ s, (p.start pre 0).Runs s → (∃ u, s.canStep u = true) ∨ s.Completed) ↔ f.Fits) ∧
    ∀ s, (p.start pre 0).Runs s → s.Completed →
      ∃ x, s.procs f.sink = some x ∧ x.calls = (List.replicate f.branches f.values).flatten := by
  obtain ⟨pos, hl⟩ := f.layout hb
  have hnet := built_network (build_from f.calls (.new f.option) hb) hl.completed
  refine ⟨⟨fun h => ?_, fun hfit s hs => ?_⟩, fun s hs hc => ForkConcat.Layout.sink_calls hnet hs hc hl⟩
  · by_contra hno
    obtain ⟨t, k, b, j, ht, hk, htk, hlong⟩ := ForkConcat.exists_overflow pos hno
    obtain ⟨s, hs, hstuck, hc⟩ := hl.gets_stuck hnet ht hk htk hlong pre
    rcases h s hs with ⟨u, hu⟩ | hc'
    · rw [hstuck u] at hu
      cases hu
    · exact hc hc'
  · by_contra hno
    simp only [not_or, not_exists, Bool.not_eq_true] at hno
    obtain ⟨hstuck, hunfinished⟩ := hno
    have hR := hnet.running hs.reaches
    have hcalm := hnet.calm hl.pure hs
    have hchannel := fun u n hn => (hl.pure u n hn).not_channel
    have hS : Standstill s :=
      hR.standstill hnet (hnet.lives hs.reaches) hcalm.alive hcalm.not_escaped (fun u _ => hstuck u)
      (fun u n x q hn hx hk => by rw [(hchannel u n hn).1] at hk; cases hk) (fun u n hn => (hchannel u n hn).2)
    have hall := hS.all_finished hnet hR (fun v m i q hm hi _ => by rw [(hl.is hm).2.2.1 i q hi]; exact f.room)
      (fun v m y i q hm hy hmulti => ?_)
    · refine hunfinished (fun u x hx => ?_)
      have hf := hall u hx
      have hq := hcalm.quiet u x hx
      cases hctl : x.ctl with
      | finished c =>
        cases c with
        | none => rfl
        | some c => rw [hctl] at hq; cases hq
      | _ => rw [hctl] at hf; cases hf
    · obtain rfl := (hl.is hm).2.2.2 hmulti
      exact hl.concat_goes_on hnet hs hS hfit hy

/-- Two branches with queues of one element, concatenated in their order. -/
def twoBranches (values : List Nat) : ForkConcat Nat where
  option := {}
  values := values
  branches := 2
  order := [0, 1]
  source := 1
  fork := 2
  noopId := fun i => 3 + i
  concat := 5
  sink := 6
  room := by decide
  perm := by decide

/-- One value fits: there is a run that finishes, and the sink has consumed it twice. -/
theorem fork_concat_one_value :
    ∃ (p : Pipeline Nat) (U : Finset Id) (s : State Nat) (x : Proc Nat),
      build Call.Proper (twoBranches [7]).calls (.new (twoBranches [7]).option, ∅) = some (p, U) ∧
      (p.start (fun _ => []) 0).Runs s ∧ s.Completed ∧ s.procs 6 = some x ∧ x.calls = [7, 7] := by
  obtain ⟨⟨p, U⟩, hb⟩ := Option.isSome_iff_exists.1
    (show (build Call.Proper (twoBranches [7]).calls (.new (twoBranches [7]).option, ∅)).isSome = true from rfl)
  obtain ⟨pos, hl⟩ := (twoBranches [7]).layout hb
  have hnet := built_network (build_from _ (.new _) hb) hl.completed
  obtain ⟨hprogress, hsink⟩ := fork_concat hb (fun _ => [])
  obtain ⟨s, hs, hstuck⟩ :=
    hnet.run_ends hl.pure (fun u n g hn hg => (hl.is hn).2.1 g hg) (s := p.start (fun _ => []) 0) .refl
  rcases hprogress.2 (Or.inr (Or.inl (by decide))) s hs with ⟨u, hu⟩ | hc
  · rw [hstuck u] at hu
    cases hu
  · obtain ⟨x, hx, hcalls⟩ := hsink s hs hc
    exact ⟨p, U, s, x, hb, hs, hc, hx, hcalls⟩

/-- One value goes from the source through the fork and the first branch to the sink. -/
def passOn : List Id :=
  List.replicate 2 1 ++ List.replicate 4 2 ++ List.replicate 4 3 ++ List.replicate 4 5 ++ List.replicate 3 6 ++ [5, 3]

/-- Then the fork writes it to the second branch as well, where the `NoOpTransform` takes some steps. -/
def passBoth (steps : Nat) : List Id := passOn ++ [2, 2] ++ List.replicate steps 4 ++ [2, 1]

/-- Four values, queues of one element: the `Concat` waits for the fork to end the first branch, and the fork waits to
push its fourth value to the second, which is full. -/
theorem fork_concat_stuck :
    ∃ (p : Pipeline Nat) (U : Finset Id) (s : State Nat),
      build Call.Proper (twoBranches [1, 2, 3, 4]).calls (.new (twoBranches [1, 2, 3, 4]).option, ∅) = some (p, U) ∧
      (p.start (fun _ => []) 0).Runs s ∧ (∀ u, s.canStep u = false) ∧
      (∃ x, s.procs 2 = some x ∧ x.ctl = .push 1 (some 4) [] (.pop 0)) ∧ ∃ x, s.procs 5 = some x ∧ x.ctl = .pop 0 := by
  have hb : Built Call.Proper (Pipeline.ofCalls Call.Proper (twoBranches [1, 2, 3, 4]).option (twoBranches [1, 2, 3,
      4]).calls).1 _ :=
    built_ofCalls _ _ _
  have hkeys : ∀ v ∈ (Pipeline.ofCalls Call.Proper (twoBranches [1, 2, 3, 4]).option (twoBranches [1, 2, 3,
      4]).calls).1.nodes.keys, v = 1 ∨ v = 2 ∨ v = 3 ∨ v = 4 ∨ v = 5 ∨ v = 6 := by decide
  have hs := State.Runs.of_runAll
    (s := (Pipeline.ofCalls Call.Proper (twoBranches [1, 2, 3, 4]).option (twoBranches [1, 2, 3, 4]).calls).1.start
      (fun _ => []) 0)
    ([6, 5, 4, 3, 2, 1] ++ passBoth 5 ++ passBoth 3 ++ passBoth 0 ++ passOn ++ 2 :: List.replicate 5 1) rfl
  refine ⟨_, _, _, rfl, hs, fun u => ?_, ⟨_, rfl, rfl⟩, ⟨_, rfl, rfl⟩⟩
  rw [← Bool.not_eq_true]
  intro hcan
  obtain ⟨x, hx⟩ := State.proc_of_canStep hcan
  obtain ⟨n, hn, -⟩ := ((built_network hb rfl).running hs.reaches).node hx
  rcases hkeys u (PMap.mem_keys_of_get hn) with rfl | rfl | rfl | rfl | rfl | rfl <;> cases hcan

end Tunnel
