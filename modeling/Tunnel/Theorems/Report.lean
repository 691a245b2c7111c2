import Tunnel.Report
import Tunnel.Theorems.Schedule

/-!
# What a run reports

The vector that `Run` returns is empty, whatever happened, although each round of its last loop has the entry of its
node at hand (`rounds_report`). The collectors themselves are right: in a run without an exception, what the writers of
a queue recorded together is what its reader recorded, and both are what crossed the queue.
-/

namespace Tunnel

open Lib

variable {V : Type} {p : Pipeline V} {U : Finset Id} {a : Accounting V} {t t' : Traced V}

/-! ## The vector -/

/-- Every coroutine is at its end. -/
def Traced.Ended (t : Traced V) : Prop := ∀ u x, t.state.procs u = some x → x.ctl.atEnd = true

/-- The `work` of a processor threw. -/
def Traced.Threw (t : Traced V) (u : Id) : Prop :=
  ∃ x, t.state.procs u = some x ∧ ((∃ c, x.ctl = .finished (some c)) ∨ x.ctl = .escaped)

/-- A report of a run: one entry for each node, with an error iff its `work` threw, and with its collector. -/
def Reports (p : Pipeline V) (t : Traced V) (results : List ProcessorWorkResult) : Prop :=
  ∃ order : IdSet, (∀ u, u ∈ order.elems ↔ u ∈ p.nodes.keys) ∧
    List.Forall₂ (fun u r => ((∃ c, r.workResult = .error c) ↔ t.Threw u) ∧
      r.eventCollector = t.collectors u) order.elems results

namespace Traced

/-- The loop adds no result. -/
theorem resultsLoop_eq (t : Traced V) (lazyResults : List WorkResult) (nodes : List Id)
    (results : List ProcessorWorkResult) :
    t.resultsLoop lazyResults nodes results = results := by
  induction lazyResults generalizing nodes with
  | nil => rfl
  | cons eachLazy lazyResults ih =>
    cases nodes with
    | nil => rfl
    | cons node nodes => exact ih nodes

/-- A traced run is a run. -/
theorem Reaches.state (h : t.Reaches a t') : t.state.Reaches t'.state := by
  induction h with
  | refl => exact .refl
  | tail _ hstep ih =>
    obtain ⟨e, he⟩ := hstep
    obtain ⟨s, hs, rfl⟩ := Option.map_eq_some_iff.1 he
    exact ih.tail ⟨e, hs⟩

/-- A list of steps is a traced run. -/
theorem Reaches.of_runAll (es : List (Event V)) {t t' : Traced V} (h : t.runAll a es = some t') : t.Reaches a t' :=
  reaches_of_run (Traced.runAll a) (fun _ => rfl) (fun _ _ _ => rfl) es h

/-- What `collectAllPara` returns, when every node of the order has a result. -/
theorem mapM_workResult (t : Traced V) {nodes : List Id} (h : ∀ u ∈ nodes, ∃ r, t.workResult u = some r) :
    ∃ rs, nodes.mapM t.workResult = some rs ∧ List.Forall₂ (fun u r => t.workResult u = some r) nodes rs := by
  induction nodes with
  | nil => exact ⟨[], rfl, .nil⟩
  | cons u nodes ih =>
    obtain ⟨r, hr⟩ := h u List.mem_cons_self
    obtain ⟨rs, hrs, hall⟩ := ih (fun w hw => h w (List.mem_cons_of_mem _ hw))
    refine ⟨r :: rs, ?_, .cons hr hall⟩
    rw [List.mapM_cons, hr, hrs]
    rfl

/-- The result of a coroutine tells whether `work` threw. -/
theorem workResult_error {u : Id} {r : WorkResult} (h : t.workResult u = some r) : (∃ c, r = .error c) ↔ t.Threw u := by
  unfold workResult at h
  split at h
  · rename_i x hx
    split at h
    · rename_i hc
      cases h
      refine iff_of_false nofun ?_
      rintro ⟨y, hy, hcy⟩
      rw [hx] at hy
      cases hy
      rw [hc] at hcy
      rcases hcy with ⟨c, hcy⟩ | hcy <;> cases hcy
    · rename_i c hc
      cases h
      exact iff_of_true ⟨c, rfl⟩ ⟨x, hx, .inl ⟨c, hc⟩⟩
    · rename_i hc
      cases h
      exact iff_of_true ⟨_, rfl⟩ ⟨x, hx, .inr hc⟩
    · cases h
  · cases h

/-- Each round pairs a result and a collector of one node. -/
theorem forall₂_result {nodes : List Id} {rs : List WorkResult}
    (h : List.Forall₂ (fun u r => t.workResult u = some r) nodes rs) :
    List.Forall₂ (fun u r => ((∃ c, r.workResult = .error c) ↔ t.Threw u) ∧ r.eventCollector = t.collectors u) nodes
      (List.zipWith t.result rs nodes) := by
  induction h with
  | nil => exact .nil
  | cons hr _ ih => exact .cons ⟨workResult_error hr, rfl⟩ ih

end Traced

variable {s s' : State V} {pre : UserChannel → List (Option V)} {tokens : Nat} {u : Id}

/-- The processors of a run are those of the pipeline. -/
theorem State.Reaches.isSome_procs (h : s.Reaches s') (u : Id) : (s'.procs u).isSome = (s.procs u).isSome := by
  have hset : ∀ {b c : State V} {v : Id} {x y : Proc V}, b.procs v = some x → c.procs = b.procs →
      ((c.setProc v y).procs u).isSome = (b.procs u).isSome := by
    intro b c v x y hv hc
    rw [State.setProc_procs, hc]
    by_cases huv : u = v
    · rw [if_pos huv, huv, hv]
      rfl
    · rw [if_neg huv]
  refine h.induct (I := fun b => (b.procs u).isSome = (s.procs u).isSome) rfl (fun b c e ih _ hm => ?_)
  rw [← ih]
  cases hm with
  | pop hu ha hq => exact hset hu rfl
  | push hu ha hq => exact hset hu rfl
  | tryPop hu ha => exact hset hu rfl
  | tryPush hu ha => exact hset hu rfl
  | internal hu ha => exact hset hu rfl
  | throw hu hc => exact hset hu rfl
  | send hq => rfl
  | receive hq => rfl
  | addToken ht => rfl
  | takeToken ht => rfl

/-- At the end of a run every node has a result. -/
theorem Traced.Ended.workResult (hend : t.Ended) (ht : (p.startTraced pre tokens).Reaches a t) (hu : u ∈ p.nodes.keys) :
    ∃ r, t.workResult u = some r := by
  have hsome : (t.state.procs u).isSome = true := by
    rw [ht.state.isSome_procs u]
    show ((p.nodes.get u).map p.startProc).isSome = true
    rw [Option.isSome_map]
    exact (p.nodes.mem_keys u).1 hu
  obtain ⟨x, hx⟩ := Option.isSome_iff_exists.1 hsome
  have hf := hend u x hx
  cases hc : x.ctl with
  | finished c => cases c <;> simp [Traced.workResult, hx, hc]
  | escaped => simp [Traced.workResult, hx, hc]
  | _ => simp [hc, Ctl.atEnd] at hf

/-- The rounds of the last loop of `Run` have a report of the run at hand: results and nodes are paired as they belong
together. -/
theorem rounds_report (ht : (p.startTraced pre tokens).Reaches a t) (hend : t.Ended) (order : IdSet)
    (ho : ∀ u, u ∈ order.elems ↔ u ∈ p.nodes.keys) :
    ∃ lazyResults, order.elems.mapM t.workResult = some lazyResults ∧
    Reports p t (List.zipWith t.result lazyResults order.elems) := by
  obtain ⟨rs, hrs, hall⟩ := t.mapM_workResult (fun u hu => hend.workResult ht ((ho u).1 hu))
  exact ⟨rs, hrs, order, ho, Traced.forall₂_result hall⟩

/-- An empty vector is no report of a pipeline with a node. -/
theorem not_reports_nil (hu : u ∈ p.nodes.keys) (t : Traced V) : ¬Reports p t [] := by
  rintro ⟨order, ho, hall⟩
  have hmem := (ho u).2 hu
  rw [List.forall₂_nil_right_iff.1 hall] at hmem
  cases hmem

/-- `Run` returns an empty vector for every completed pipeline with nodes, whatever the interleaving and whoever threw,
and that is no report of the run; the rounds of its last loop have a report at hand. -/
theorem run_reports_nothing (hrun : p.runChecks true = .ok ()) {pre : UserChannel → List (Option V)} {tokens : Nat}
    (ht : (p.startTraced pre tokens).Reaches a t) (hend : t.Ended) (order : IdSet)
    (ho : ∀ u, u ∈ order.elems ↔ u ∈ p.nodes.keys) :
    t.run order = some [] ∧ ¬Reports p t [] ∧
      ∃ lazyResults, order.elems.mapM t.workResult = some lazyResults ∧
      Reports p t (List.zipWith t.result lazyResults order.elems) := by
  refine ⟨?_, ?_, rounds_report ht hend order ho⟩
  · obtain ⟨rs, hrs, -⟩ := t.mapM_workResult (fun u hu => hend.workResult ht ((ho u).1 hu))
    rw [Traced.run, hrs, Option.map_some, Traced.resultsLoop_eq]
  · obtain ⟨u, hu⟩ := Finset.nonempty_iff_ne_empty.2 (Pipeline.runChecks_ok hrun).2
    exact not_reports_nil hu t

/-- Everybody has ended. -/
theorem Traced.Ended.of_keys (ht : (p.startTraced pre tokens).Reaches a t)
    (hk : ∀ u ∈ p.nodes.keys, ∃ x, t.state.procs u = some x ∧ x.ctl.atEnd = true) : t.Ended := by
  intro u x hx
  have hu : u ∈ p.nodes.keys := by
    rw [p.nodes.mem_keys, ← Option.isSome_map (f := p.startProc)]
    exact (ht.state.isSome_procs u).symm.trans (by rw [hx]; rfl)
  obtain ⟨y, hy, hf⟩ := hk u hu
  rw [hx] at hy
  cases hy
  exact hf

/-- A source whose `generate` throws, before a sink. -/
def throwingSource : Pipeline Nat × Finset Id :=
  Pipeline.ofCalls Call.Proper { bindAbortChannel := true }
    [.addSource 1 "source" (.generate (fun _ => none)), .setSink 2 "sink" .consume (.single 1)]

/-- The source throws at its first call, and the sink gets the EOF of `hosted_mode`. -/
def throwAtOnce : List (Event Nat) :=
  [.run 1, .throw 1 true] ++ (List.replicate 4 1 ++ List.replicate 4 2).map .run

/-- Where the coroutines of the two stand at the end. -/
theorem throwAtOnce_ends :
    ∃ t x y, (throwingSource.1.startTraced (fun _ => []) 0).runAll ⟨none, fun _ => 0⟩ throwAtOnce = some t ∧
    (t.state.procs 1 = some x ∧ x.ctl = .finished (some (.callback true))) ∧ t.state.procs 2 = some y ∧
    y.ctl = .finished none := by
  have hrun : ((throwingSource.1.startTraced (fun _ => []) 0).runAll ⟨none, fun _ => 0⟩ throwAtOnce).map
      (fun t => ((t.state.procs 1).map (·.ctl), (t.state.procs 2).map (·.ctl))) =
        some (some (.finished (some (.callback true))), some (.finished none)) := by decide +kernel
  obtain ⟨t, hrun, hctl⟩ := Option.map_eq_some_iff.1 hrun
  obtain ⟨h1, h2⟩ := Prod.mk.inj hctl
  obtain ⟨x, hx⟩ := Option.map_eq_some_iff.1 h1
  obtain ⟨y, hy⟩ := Option.map_eq_some_iff.1 h2
  exact ⟨t, x, y, hrun, hx, hy⟩

/-- The vector of a run in which the source threw is as empty as any other. -/
theorem run_reports_nothing_throw :
    ∃ t, (throwingSource.1.startTraced (fun _ => []) 0).runAll ⟨none, fun _ => 0⟩ throwAtOnce = some t ∧ t.Ended ∧
    t.run ⟨[1, 2], by decide⟩ = some [] ∧ ¬Reports throwingSource.1 t [] := by
  obtain ⟨t, x, y, hrun, ⟨hx, hcx⟩, hy, hcy⟩ := throwAtOnce_ends
  have ht := Traced.Reaches.of_runAll throwAtOnce hrun
  have hkeys : ∀ u, u ∈ [1, 2] ↔ u ∈ throwingSource.1.nodes.keys := by
    intro u
    rw [show throwingSource.1.nodes.keys = {1, 2} by decide]
    simp
  have hend : t.Ended := by
    refine .of_keys ht (fun u hu => ?_)
    obtain rfl | rfl : u = 1 ∨ u = 2 := by simpa using (hkeys u).2 hu
    · exact ⟨x, hx, by rw [hcx]; rfl⟩
    · exact ⟨y, hy, by rw [hcy]; rfl⟩
  obtain ⟨hnil, hno, -⟩ := run_reports_nothing rfl ht hend ⟨[1, 2], by decide⟩ hkeys
  exact ⟨t, hrun, hend, hnil, hno⟩

/-- The source threw, both coroutines are at their end, and the vector has no entry, for the source or the sink. -/
theorem run_drops_error :
    ∃ t, (throwingSource.1.startTraced (fun _ => []) 0).runAll ⟨none, fun _ => 0⟩ throwAtOnce = some t ∧ t.Threw 1 ∧
    throwingSource.1.getProcessorSize = 2 ∧ t.run ⟨[1, 2], by decide⟩ = some [] ∧ ¬Reports throwingSource.1 t [] := by
  obtain ⟨t, x, y, hrun, ⟨hx, hcx⟩, hy, hcy⟩ := throwAtOnce_ends
  refine ⟨t, hrun, ⟨x, hx, .inl ⟨_, hcx⟩⟩, by decide, ?_, not_reports_nil (u := 1) (by decide) t⟩
  simp [Traced.run, Traced.workResult, hx, hcx, hy, hcy, Traced.resultsLoop_eq]

/-! ## Statistics -/

namespace EventCollector

/-- One port more was used. -/
theorem getD_portUsed (ports : PMap Nat PortStatistic) (index bytes j : Nat) :
    ((portUsed ports index bytes).get j).getD {} =
      if j = index then ⟨((ports.get j).getD {}).count + 1, ((ports.get j).getD {}).bytes + bytes⟩
      else (ports.get j).getD {} := by
  rw [portUsed, PMap.get_modify, PMap.get_insert]
  by_cases hj : j = index
  · subst hj
    simp
  · simp [hj]

/-- A read counts at its input. -/
theorem input_inputPortRead (c : EventCollector) (index bytes j : Nat) :
    (c.inputPortRead index bytes).input j = if j = index then ⟨(c.input j).count + 1, (c.input j).bytes + bytes⟩
    else c.input j :=
  getD_portUsed c.inputPortsStatistic index bytes j

/-- A write counts at its output. -/
theorem output_outputPortWrite (c : EventCollector) (index bytes j : Nat) :
    (c.outputPortWrite index bytes).output j = if j = index then ⟨(c.output j).count + 1, (c.output j).bytes + bytes⟩
    else c.output j :=
  getD_portUsed c.outputPortsStatistic index bytes j

@[simp] theorem output_inputPortRead (c : EventCollector) (index bytes j : Nat) :
    (c.inputPortRead index bytes).output j = c.output j := rfl

@[simp] theorem input_outputPortWrite (c : EventCollector) (index bytes j : Nat) :
    (c.outputPortWrite index bytes).input j = c.input j := rfl

end EventCollector

namespace Accounting

/-- The statistic of elements that went through a port, or a queue. -/
def total (a : Accounting V) (l : List (Option V)) : PortStatistic := ⟨l.length, (l.map a.transferredBytes).sum⟩

/-- One element more. -/
theorem total_append (a : Accounting V) (l : List (Option V)) (v : Option V) :
    a.total (l ++ [v]) = ⟨(a.total l).count + 1, (a.total l).bytes + a.transferredBytes v⟩ := by
  simp [total]

/-- Elements are values and EOFs, and only values have bytes. -/
theorem total_eq (a : Accounting V) (l : List (Option V)) :
    a.total l = ⟨l.reduceOption.length + eofs l, (l.reduceOption.map (fun v => a.transferredBytes (some v))).sum⟩ := by
  induction l with
  | nil => rfl
  | cons v l ih =>
    simp only [total, PortStatistic.mk.injEq] at ih ⊢
    cases v with
    | none =>
      rw [List.reduceOption_cons_of_none, eofs, List.countP_cons_of_pos rfl, ← eofs, List.length_cons, List.map_cons,
        List.sum_cons, ih.1, ih.2]
      exact ⟨rfl, Nat.zero_add _⟩
    | some v =>
      rw [List.reduceOption_cons_of_some, eofs, List.countP_cons_of_neg Bool.false_ne_true, ← eofs, List.length_cons,
        List.map_cons, List.sum_cons, List.length_cons, List.map_cons, List.sum_cons, ih.1, ih.2]
      exact ⟨by omega, rfl⟩

/-- The ports of a processor have different indices. -/
theorem getIndex_ne (a : Accounting V) {multi : Bool} {ports i j : Nat} (hone : multi = false → ports ≤ 1)
    (hi : i < ports) (hj : j < ports) (hne : i ≠ j) (q r : Queue) : a.getIndex multi i q ≠ a.getIndex multi j r := by
  cases multi with
  | true => exact hne
  | false =>
    have := hone rfl
    omega

end Accounting

/-- The collector of a processor has what went through its ports. A `ChannelSink` puts its EOF on the user's channel
behind the back of its collector, so that only the queues of the pipeline count. -/
structure Proc.Counted (a : Accounting V) (n : Processor V) (x : Proc V) (c : EventCollector) : Prop where
  inputs : ∀ i q, n.inChan i = some q → c.input (a.getIndex n.kind.isMultiIn i q) = a.total (x.taken i)
  outputs : ∀ o q, n.outChan o = some q → q.isLink = true → c.output (a.getIndex n.kind.isMultiOut o q) =
    a.total (x.put o)

namespace Proc

variable {n : Processor V} {x y : Proc V} {c : EventCollector}

/-- Only the ports count. -/
theorem Counted.congr (h : x.Counted a n c) (hports : y.toPorts = x.toPorts) : y.Counted a n c := by
  refine ⟨fun i q hi => ?_, fun o q ho hq => ?_⟩
  · rw [h.inputs i q hi, hports]
  · rw [h.outputs o q ho hq, hports]

variable {q : Queue}

/-- `Pop` took an element and recorded it. -/
theorem Counted.popped (hs : n.Shaped) (hinv : x.Inv n) (h : x.Counted a n c) {i : Nat} (ha : x.action = .pop i q)
    (v : Option V) :
    (x.popped i v).Counted a n (c.inputPortRead (a.getIndex x.obj.kind.isMultiIn i q) (a.transferredBytes v)) := by
  obtain ⟨hi, -, hq⟩ := hinv.pop_port ha
  obtain ⟨htaken, hput⟩ := popped_taken ha v
  rw [hinv.kind]
  refine ⟨fun j r hj => ?_, fun o r ho hr => ?_⟩
  · rw [htaken, EventCollector.input_inputPortRead]
    by_cases hji : j = i
    · subst hji
      rw [hq] at hj
      cases hj
      rw [if_pos rfl, h.inputs j q hq, ← a.total_append]
      simp [Ports.take]
    · rw [if_neg (a.getIndex_ne Kind.nin_le_one (hs.in_lt j r hj) hi hji r q), h.inputs j r hj,
        x.toPorts.taken_take_ne v hji]
  · rw [hput, EventCollector.output_inputPortRead]
    exact h.outputs o r ho hr

/-- `Push` put an element and recorded it. -/
theorem Counted.pushed (hs : n.Shaped) (hinv : x.Inv n) (h : x.Counted a n c) {o : Nat} {v : Option V}
    (ha : x.action = .push o q v) :
    (x.pushed o v).Counted a n (c.outputPortWrite (a.getIndex x.obj.kind.isMultiOut o q) (a.transferredBytes v)) := by
  obtain ⟨ho, -, hq⟩ := hinv.push_port ha
  obtain ⟨hput, htaken⟩ := pushed_put ha
  rw [hinv.kind]
  refine ⟨fun i r hi => ?_, fun j r hj hr => ?_⟩
  · rw [htaken, EventCollector.input_outputPortWrite]
    exact h.inputs i r hi
  · rw [hput, EventCollector.output_outputPortWrite]
    by_cases hjo : j = o
    · subst hjo
      rw [hq] at hj
      cases hj
      rw [if_pos rfl, h.outputs j q hq hr, ← a.total_append, x.toPorts.put_give]
    · rw [if_neg (a.getIndex_ne Kind.nout_le_one (hs.out_lt j r hj) ho hjo r q), h.outputs j r hj hr,
        x.toPorts.put_give_ne v hjo]

/-- The EOF of a `ChannelSink` goes to no queue of the pipeline. -/
theorem Counted.pushed_afterWork (hs : n.Shaped) (hinv : x.Inv n) (h : x.Counted a n c) {o : Nat} {v : Option V}
    (ha : x.action = .push o q v) (hk : x.obj.kind.isChannelSink = true) : (x.pushed o v).Counted a n c := by
  obtain ⟨-, htaken⟩ := pushed_put ha
  refine ⟨fun i r hi => ?_, fun j r hj hr => ?_⟩
  · rw [htaken]
    exact h.inputs i r hi
  · rw [hs.out_link j r hj, ← hinv.kind, hk] at hr
    cases hr

end Proc

/-- A step on no queue is not recorded. -/
theorem Traced.observe_eq {x : Proc V} (hx : s.procs u = some x) (hpop : ∀ i q, x.action ≠ .pop i q)
    (hpush : ∀ o q v, x.action ≠ .push o q v) (c : EventCollector) : Traced.observe a s u c = c := by
  unfold Traced.observe
  rw [hx]
  simp only
  split
  · exact absurd (by assumption) (hpop _ _)
  · exact absurd (by assumption) (hpush _ _ _)
  · rfl

/-- A step of a processor keeps its collector right, as long as no exception comes. -/
theorem Moves.counted (hnet : Network p U) (hR : Running p s) (hm : Moves s (.run u) s') {n : Processor V}
    {x y : Proc V} (hn : p.nodes.get u = some n) (hx : s.procs u = some x) (hy : s'.procs u = some y)
    (hh : y.ctl.hosted = false) {c : EventCollector} (h : x.Counted a n c) :
    y.Counted a n (Traced.observe a s u c) := by
  have hs := hnet.wired.shaped u n hn
  have hinv := hR.inv u n x hn hx
  have hset : ∀ {b : State V} {z : Proc V}, (b.setProc u z).procs u = some y → y = z := by
    intro b z hz
    rw [State.setProc_procs, if_pos rfl] at hz
    exact (Option.some.inj hz).symm
  cases hm with
  | @pop _ _ i q v rest hu ha hq =>
    rw [hx] at hu
    cases hu
    rw [hset hy] at hh ⊢
    obtain ⟨-, hc | ⟨d, hc, -⟩⟩ := Proc.action_pop ha
    · have hobs : Traced.observe a s u c =
          c.inputPortRead (a.getIndex x.obj.kind.isMultiIn i q) (a.transferredBytes v) := by
        simp only [Traced.observe, hx, hc, ha, hq]
      rw [hobs]
      exact h.popped hs hinv ha v
    · rw [(Proc.Turn.popped ha v).hosted (by rw [hc]; rfl)] at hh
      cases hh
  | @push _ _ o q v hu ha hq =>
    rw [hx] at hu
    cases hu
    rw [hset hy] at hh ⊢
    obtain ⟨-, ⟨rest, next, hc⟩ | ⟨hc, hk, -, -⟩ | ⟨d, hc, -, -⟩⟩ := Proc.action_push ha
    · have hobs : Traced.observe a s u c =
          c.outputPortWrite (a.getIndex x.obj.kind.isMultiOut o q) (a.transferredBytes v) := by
        simp only [Traced.observe, hx, hc, ha]
      rw [hobs]
      exact h.pushed hs hinv ha
    · have hobs : Traced.observe a s u c = c := by simp only [Traced.observe, hx, hc, ha]
      rw [hobs]
      exact h.pushed_afterWork hs hinv ha hk
    · rw [(Proc.Turn.pushed ha).hosted (by rw [hc]; rfl)] at hh
      cases hh
  | tryPop hu ha =>
    rw [hx] at hu
    cases hu
    rw [hset hy, Traced.observe_eq hx (by rw [ha]; nofun) (by rw [ha]; nofun)]
    exact h.congr (Proc.checked_toPorts x _)
  | tryPush hu ha =>
    rw [hx] at hu
    cases hu
    rw [hset hy, Traced.observe_eq hx (by rw [ha]; nofun) (by rw [ha]; nofun)]
    exact h.congr (Proc.notified_toPorts x)
  | internal hu ha =>
    rw [hx] at hu
    cases hu
    rw [hset hy, Traced.observe_eq hx (by rw [ha]; nofun) (by rw [ha]; nofun)]
    exact h.congr (Proc.internal_toPorts x)

/-- A step that is not one of a processor leaves it alone, or stops it. -/
theorem Moves.untouched {e : Event V} (hm : Moves s e s') (he : e ≠ .run u) {y : Proc V} (hy : s'.procs u = some y)
    (hh : y.ctl.hosted = false) : s.procs u = some y := by
  have hother : ∀ {b : State V} {v : Id} {z : Proc V}, b.procs = s.procs → Event.run (V := V) v ≠ .run u →
    (b.setProc v z).procs u = some y →
      s.procs u = some y := by
    intro b v z hb hv hz
    have huv : u ≠ v := fun huv => hv (huv ▸ rfl)
    rw [State.setProc_procs, if_neg huv, hb] at hz
    exact hz
  cases hm with
  | pop hu ha hq => exact hother rfl he hy
  | push hu ha hq => exact hother rfl he hy
  | tryPop hu ha => exact hother rfl he hy
  | tryPush hu ha => exact hother rfl he hy
  | internal hu ha => exact hother rfl he hy
  | throw hu hc =>
    rcases State.setProc_procs_some hy with ⟨-, rfl⟩ | ⟨-, hy⟩
    · cases hh
    · exact hy
  | send hq => exact hy
  | receive hq => exact hy
  | addToken ht => exact hy
  | takeToken ht => exact hy

namespace Traced

/-- In every state of a run, the collector of a processor that no exception stopped has what went through its ports. -/
structure Right (a : Accounting V) (p : Pipeline V) (t : Traced V) : Prop where
  running : Running p t.state
  counted : ∀ u n x, p.nodes.get u = some n → t.state.procs u = some x → x.ctl.hosted = false →
    x.Counted a n (t.collectors u)

/-- Every step keeps the statistics right. -/
theorem Right.step (hnet : Network p U) (h : t.Right a p) {e : Event V} (he : t.step a e = some t') : t'.Right a p := by
  obtain ⟨s, hs, rfl⟩ := Option.map_eq_some_iff.1 he
  obtain ⟨-, hm⟩ := State.step_iff.1 hs
  refine ⟨h.running.moves hnet hm, fun u n y hn hy hh => ?_⟩
  by_cases heu : e = .run u
  · subst heu
    obtain ⟨x, hx, hhx⟩ : ∃ x, t.state.procs u = some x ∧ x.ctl.hosted = false := by
      rcases hm.turn hy with hx | ⟨x, hx, hturn⟩
      · exact ⟨y, hx, hh⟩
      · exact ⟨x, hx, hturn.not_hosted hh⟩
    simp only [Function.update_self]
    exact hm.counted hnet h.running hn hx hy hh (h.counted u n x hn hx hhx)
  · have hx := hm.untouched heu hy hh
    have hkept := h.counted u n y hn hx hh
    cases e with
    | run v =>
      have huv : u ≠ v := fun huv => heu (huv ▸ rfl)
      simp only [Function.update_of_ne huv]
      exact hkept
    | _ => exact hkept

/-- They are right at the start. -/
theorem right_start (a : Accounting V) (p : Pipeline V) (pre : UserChannel → List (Option V)) (tokens : Nat) :
    (p.startTraced pre tokens).Right a p := by
  refine ⟨running_start p pre tokens, fun u n x hn hx _ => ?_⟩
  simp only [Pipeline.startTraced, Pipeline.start, hn, Option.map_some, Option.some.injEq] at hx
  subst hx
  exact ⟨fun _ _ _ => rfl, fun _ _ _ _ => rfl⟩

/-- They are right in every run. -/
theorem Reaches.right (hnet : Network p U) {pre : UserChannel → List (Option V)} {tokens : Nat}
    (ht : (p.startTraced pre tokens).Reaches a t) : t.Right a p := by
  induction ht with
  | refl => exact right_start a p pre tokens
  | tail _ hstep ih =>
    obtain ⟨e, he⟩ := hstep
    exact ih.step hnet he

/-- What `InputPortRead` recorded for an input that holds a queue. -/
def read (t : Traced V) (a : Accounting V) (v : Id) (n : Processor V) (i : Nat) (q : Queue) : PortStatistic :=
  (t.collectors v).input (a.getIndex n.kind.isMultiIn i q)

/-- What `OutputPortWrite` recorded for an output that holds a queue. -/
def written (t : Traced V) (a : Accounting V) (p : Pipeline V) (w : Id × Nat) (q : Queue) : PortStatistic :=
  (t.collectors w.1).output (a.getIndex ((p.nodes.get w.1).elim false (fun n => n.kind.isMultiOut)) w.2 q)

end Traced

/-- A port of the pipeline holds the queue. -/
def Pipeline.Holds (p : Pipeline V) (q : Queue) : Prop :=
  ∃ u n, p.nodes.get u = some n ∧ ((∃ i, n.inChan i = some q) ∨ ∃ o, n.outChan o = some q)

/-- The statistics of a run in which no processor threw balance. Every queue of the pipeline has one reader. The counts
that the writers of the queue recorded add up to the count of the reader, which is the number of values and EOFs that
crossed the queue. So do the bytes, and they are the bytes of these values. -/
theorem statistics_balance (hb : Built Call.Proper p U) (hrun : p.runChecks true = .ok ())
    {pre : UserChannel → List (Option V)} {tokens : Nat} (ht : (p.startTraced pre tokens).Reaches a t)
    (hc : t.state.Completed) {q : Queue} (hq : q.isLink = true) (hold : p.Holds q) :
    (t.state.queues q).content = [] ∧ ∃ v n i, p.nodes.get v = some n ∧ n.inChan i = some q ∧
      (∀ v' n' i', p.nodes.get v' = some n' → n'.inChan i' = some q → v' = v ∧ i' = i) ∧
      let crossed := (t.state.queues q).taken
      (t.read a v n i q).count = crossed.reduceOption.length + eofs crossed ∧
      (t.read a v n i q).bytes = (crossed.reduceOption.map (fun v => a.transferredBytes (some v))).sum ∧
      ∑ w ∈ p.writers q, (t.written a p w q).count = (t.read a v n i q).count ∧
      ∑ w ∈ p.writers q, (t.written a p w q).bytes = (t.read a v n i q).bytes := by
  have hnet := built_network hb (Pipeline.runChecks_ok hrun).1
  obtain ⟨hR, hcounted⟩ := ht.right hnet
  have hempty := hR.content_eq_nil hnet hc.finished hq
  obtain ⟨v, n, i, hn, hi⟩ : ∃ v n i, p.nodes.get v = some n ∧ n.inChan i = some q := by
    obtain ⟨u, m, hm, ⟨i, hi⟩ | ⟨o, ho⟩⟩ := hold
    · exact ⟨u, m, i, hm, hi⟩
    · exact hnet.wired.out_read u m o q hm ho hq
  obtain ⟨y, hy, -⟩ := hR.proc hn
  have hread : t.read a v n i q = a.total (t.state.queues q).taken := by
    rw [hR.taken v n y i q hn hy hi hq]
    exact (hcounted v n y hn hy (by rw [hc v y hy]; rfl)).inputs i q hi
  have hwritten : ∀ w ∈ p.writers q, t.written a p w q = a.total ((t.state.queues q).putBy (.port w.1 w.2)) := by
    intro w hw
    obtain ⟨m, hm, ho⟩ := (p.mem_writers q w.1 w.2).1 hw
    obtain ⟨x, hx, -⟩ := hR.proc hm
    rw [Traced.written, hm, hR.put w.1 m x w.2 q hm hx ho]
    exact (hcounted w.1 m x hm hx (by rw [hc w.1 x hx]; rfl)).outputs w.2 q ho hq
  have hmix := hR.interleaves hq
  rw [hempty, List.append_nil] at hmix
  refine ⟨hempty, v, n, i, hn, hi, fun v' n' i' hn' hi' => hnet.wired.reader_unique v' n' i' v n i q hn' hn hi' hi hq,
    ?_, ?_, ?_, ?_⟩
  · rw [hread, a.total_eq]
  · rw [hread, a.total_eq]
  · rw [hread, Finset.sum_congr rfl (fun w hw => congrArg PortStatistic.count (hwritten w hw))]
    exact hmix.length_eq.symm
  · rw [hread, Finset.sum_congr rfl (fun w hw => congrArg PortStatistic.bytes (hwritten w hw))]
    exact (hmix.sum_map_eq a.transferredBytes).symm

/-- Four bytes for each value. -/
def fourBytes : Accounting Nat := ⟨some (fun _ => 4), fun _ => 0⟩

/-- What the collectors of two sources and the sink behind them have in the end. -/
theorem takeTurns_statistics : ((twoSources.1.startTraced (fun _ => []) 0).runAll fourBytes (takeTurns 1 2)).map
    (fun t => ([1, 2, 3].map (fun u => (t.state.procs u).map (·.ctl)), (t.collectors 3).input 0)) =
      some (List.replicate 3 (some (.finished none)), ⟨4, 8⟩) := by decide +kernel

/-- Two sources before one sink. -/
theorem statistics_balance_two_sources :
    ∃ t, (twoSources.1.startTraced (fun _ => []) 0).runAll fourBytes (takeTurns 1 2) = some t ∧ t.state.Completed ∧
    ∑ w ∈ twoSources.1.writers (.link 3 0 1), (t.written fourBytes twoSources.1 w (.link 3 0 1)).count = 4 ∧
    ∑ w ∈ twoSources.1.writers (.link 3 0 1), (t.written fourBytes twoSources.1 w (.link 3 0 1)).bytes = 8 := by
  obtain ⟨t, hrun, hend⟩ := Option.map_eq_some_iff.1 takeTurns_statistics
  obtain ⟨hctl, hread⟩ := Prod.mk.inj hend
  have hb : Built Call.Proper twoSources.1 _ := built_ofCalls _ _ _
  have ht := Traced.Reaches.of_runAll (takeTurns 1 2) hrun
  have hc : t.state.Completed := twoSources_completed (ht.right (built_network hb rfl)).running hctl
  obtain ⟨-, v, n, i, hn, hi, huniq, -, -, hcount, hbytes⟩ := statistics_balance hb rfl ht hc (q := .link 3 0 1) rfl
    ⟨3, _, rfl, Or.inl ⟨0, rfl⟩⟩
  obtain ⟨rfl, rfl⟩ := huniq 3 _ 0 rfl rfl
  have hmulti : (twoSources.1.nodes.get 3).map (fun n => n.kind.isMultiIn) = some false := by decide
  rw [hn, Option.map_some] at hmulti
  have hread' : t.read fourBytes 3 n 0 (.link 3 0 1) = ⟨4, 8⟩ := by
    rw [Traced.read, Option.some.inj hmulti]
    exact hread
  exact ⟨t, hrun, hc, hcount.trans (congrArg PortStatistic.count hread'),
    hbytes.trans (congrArg PortStatistic.bytes hread')⟩

end Tunnel
