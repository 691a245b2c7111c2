import Tunnel.Lemmas.Flow
import Tunnel.Theorems.Progress

/-!
# Schedule independence

Whatever the interleaving, a run in which every processor finishes without an exception leaves the same behind: its
histories are histories of the network (`Network.histories`), and those are determined up to the order at the queues
that several writers share.
-/

namespace Tunnel

open Lib

variable {V : Type} {p : Pipeline V} {U : Finset Id} {s t : State V}

/-- Every processor finished, none with an exception. -/
def State.Completed (s : State V) : Prop := ∀ u x, s.procs u = some x → x.ctl = .finished none

/-- The values a processor took from an input so far. -/
def State.valuesIn (s : State V) (u : Id) (i : Nat) : List V :=
  match s.procs u with
  | some x => (x.taken i).reduceOption
  | none => []

/-- The values a processor put on an output so far. -/
def State.valuesOut (s : State V) (u : Id) (o : Nat) : List V :=
  match s.procs u with
  | some x => (x.put o).reduceOption
  | none => []

/-! ## The end of a run -/

/-- When all processors have finished, in whatever way, the queues of the pipeline are empty. -/
theorem Running.content_eq_nil (hnet : Network p U) (h : Running p s)
    (hf : ∀ u x, s.procs u = some x → x.ctl.isFinished = true) {q : Queue} (hq : q.isLink = true) :
    (s.queues q).content = [] := by
  have hended : ∀ w ∈ p.writers q, Ended ((s.queues q).putBy (.port w.1 w.2)) := by
    intro w hw
    obtain ⟨n, hn, ho⟩ := (p.mem_writers q w.1 w.2).1 hw
    obtain ⟨x, hx, hinv⟩ := h.proc hn
    rw [h.put w.1 n x w.2 q hn hx ho]
    exact (hinv.finished (hf w.1 x hx)).2 w.2 ((hnet.wired.shaped w.1 n hn).out_lt w.2 q ho)
  refine (s.queues q).content_eq_nil (·.isNone) (fun x hx m hm => ?_) ?_
  · obtain ⟨u, o, hw, hmem⟩ := h.log q hq x hx
    obtain ⟨vs, hvs⟩ := hended (u, o) hmem
    rw [hw, hvs] at hm
    simp only [List.getLast?_append, List.getLast?_singleton, Option.some_or, Option.mem_def, Option.some.injEq] at hm
    rw [← hm]
    rfl
  · have hcount := h.count_eofs hq
    rw [Finset.sum_congr rfl (fun w hw => (hended w hw).eofs_eq), ← Finset.card_eq_sum_ones] at hcount
    show eofs (s.queues q).content = 0
    rcases (p.writers q).eq_empty_or_nonempty with hempty | ⟨w, hw⟩
    · rw [hempty, Finset.card_empty] at hcount
      omega
    · -- the reader has taken the EOF of every writer
      obtain ⟨n, hn, ho⟩ := (p.mem_writers q w.1 w.2).1 hw
      obtain ⟨v, m, i, hm, hi⟩ := hnet.wired.out_read w.1 n w.2 q hn ho hq
      obtain ⟨y, hy, hinv⟩ := h.proc hm
      have htaken := (hinv.finished (hf v y hy)).1 i ((hnet.wired.shaped v m hm).in_lt i q hi)
      rw [← h.taken v m y i q hm hy hi hq, ← hnet.wired.count v m i q hm hi hq] at htaken
      omega

/-- What a reader has taken at the end of a run is an interleaving of what the writers of its queue have put. -/
theorem Running.interleaves_values (hnet : Network p U) (h : Running p s)
    (hf : ∀ u x, s.procs u = some x → x.ctl.isFinished = true) {v : Id} {m : Processor V} {y : Proc V} {i : Nat}
    {q : Queue} (hm : p.nodes.get v = some m) (hy : s.procs v = some y) (hi : m.inChan i = some q)
    (hq : q.isLink = true) :
    Interleaves (p.writers q) (fun w => s.valuesOut w.1 w.2) (y.taken i).reduceOption := by
  have hmix := h.interleaves hq
  rw [h.content_eq_nil hnet hf hq, List.append_nil, h.taken v m y i q hm hy hi hq] at hmix
  refine (hmix.filterMap id).congr (fun w hw => ?_)
  obtain ⟨n, hn, ho⟩ := (p.mem_writers q w.1 w.2).1 hw
  obtain ⟨x, hx, -⟩ := h.proc hn
  rw [h.put w.1 n x w.2 q hn hx ho, State.valuesOut, hx]
  rfl

/-- All have finished. -/
theorem State.Completed.finished (h : s.Completed) : ∀ u x, s.procs u = some x → x.ctl.isFinished = true := by
  intro u x hx
  rw [h u x hx]
  rfl

theorem State.Completed.of_keys (h : Running p s)
    (hk : ∀ u ∈ p.nodes.keys, ∃ x, s.procs u = some x ∧ x.ctl = .finished none) :
    s.Completed := by
  intro u x hx
  obtain ⟨n, hn, -⟩ := h.node hx
  obtain ⟨y, hy, hc⟩ := hk u (PMap.mem_keys_of_get hn)
  rw [hx] at hy
  cases hy
  exact hc

/-- A completed run leaves histories of the network behind. -/
theorem Network.histories (hnet : Network p U) {pre : UserChannel → List (Option V)} {tokens : Nat}
    (hs : (p.start pre tokens).Reaches s) (hc : s.Completed) : Histories p s.valuesIn s.valuesOut := by
  have hR := hnet.running hs
  refine ⟨fun v m i q hm hi hq => ?_, fun u n o hn ho => ?_⟩
  · obtain ⟨y, hy, -⟩ := hR.proc hm
    rw [State.valuesIn, hy]
    exact hR.interleaves_values hnet hc.finished hm hy hi hq
  · obtain ⟨x, hx, -⟩ := hR.proc hn
    have hctl := hc u x hx
    obtain ⟨hcalls, hputs⟩ := (hnet.flow hs hn hx (by rw [hctl]; rfl)).finished hctl
    have hreads : (List.range n.kind.nin).flatMap (s.valuesIn u) = x.calls := by
      rw [hcalls]
      unfold State.valuesIn
      rw [hx]
      rfl
    rw [hreads, State.valuesOut, hx]
    exact hputs o ho

/-- What a sink consumed in a completed run is what it took from its input. -/
theorem Network.calls_eq (hnet : Network p U) {pre : UserChannel → List (Option V)} {tokens : Nat}
    (hs : (p.start pre tokens).Reaches s) (hc : s.Completed) {u : Id} {n : Processor V} {x : Proc V}
    (hn : p.nodes.get u = some n) (hx : s.procs u = some x) (hnin : n.kind.nin = 1) : x.calls = s.valuesIn u 0 := by
  have hctl := hc u x hx
  obtain ⟨hcalls, -⟩ := (hnet.flow hs hn hx (by rw [hctl]; rfl)).finished hctl
  rw [hcalls, hnin, State.valuesIn, hx]
  simp [Ports.reads]

/-- In two completed runs a sink consumes the same values, as the network says; if no queue has two writers, in the same
order. -/
theorem Network.sinks_agree (hnet : Network p U) (hp : p.Pure) {pre pre' : UserChannel → List (Option V)}
    {tokens tokens' : Nat} (hs : (p.start pre tokens).Reaches s) (ht : (p.start pre' tokens').Reaches t)
    (hsc : s.Completed) (htc : t.Completed) {u : Id} {n : Processor V} (hn : p.nodes.get u = some n)
    (hk : n.kind.isSink = true) : ∃ x y, s.procs u = some x ∧ t.procs u = some y ∧
      (x.calls : Multiset V) = p.inflow n 0 ∧ (y.calls : Multiset V) = p.inflow n 0 ∧
      (p.Joinless → x.calls = y.calls) := by
  have hS := hnet.histories hs hsc
  have hT := hnet.histories ht htc
  have hnin : n.kind.nin = 1 := by
    cases hkind : n.kind <;> simp_all [Kind.isSink, Kind.nin]
  obtain ⟨x, hx, -⟩ := (hnet.running hs).proc hn
  obtain ⟨y, hy, -⟩ := (hnet.running ht).proc hn
  refine ⟨x, y, hx, hy, ?_, ?_, fun hj => ?_⟩
  · rw [hnet.calls_eq hs hsc hn hx hnin]
    exact hS.coe_ins hnet hp hn (by omega)
  · rw [hnet.calls_eq ht htc hn hy hnin]
    exact hT.coe_ins hnet hp hn (by omega)
  · rw [hnet.calls_eq hs hsc hn hx hnin, hnet.calls_eq ht htc hn hy hnin]
    exact hS.ins_unique hT hnet hp hj hn (by omega)

/-! ## Schedule independence -/

/-- Two runs of a pipeline without state, in both of which every processor finishes without an exception. The queues end
up empty; every sink has consumed each value as often as the network says, so in both runs the same; if no queue has two
writers it has consumed the same sequence in both. What a reader took is an interleaving of what the writers of its
queue put there. -/
theorem schedule_independence {p : Pipeline V} {U : Finset Id} (hb : Built Call.Proper p U)
    (hrun : p.runChecks true = .ok ()) (hp : p.Pure) {pre pre' : UserChannel → List (Option V)} {tokens tokens' : Nat}
    {s t : State V} (hs : (p.start pre tokens).Reaches s) (ht : (p.start pre' tokens').Reaches t) (hsc : s.Completed)
    (htc : t.Completed) :
    (∀ q, q.isLink = true → (s.queues q).content = []) ∧
    (∀ u n, p.nodes.get u = some n → n.kind.isSink = true → ∃ x y, s.procs u = some x ∧ t.procs u = some y ∧
      (x.calls : Multiset V) = p.inflow n 0 ∧ (y.calls : Multiset V) = p.inflow n 0 ∧
      (p.Joinless → x.calls = y.calls)) ∧
    (∀ v m i q, p.nodes.get v = some m → m.inChan i = some q → ∃ y, s.procs v = some y ∧
      Interleaves (p.writers q) (fun w => s.valuesOut w.1 w.2) (y.taken i).reduceOption) := by
  have hnet := built_network hb (Pipeline.runChecks_ok hrun).1
  have hR := hnet.running hs
  refine ⟨fun q hq => hR.content_eq_nil hnet hsc.finished hq, fun u n hn hk => hnet.sinks_agree hp hs ht hsc htc hn hk,
    fun v m i q hm hi => ?_⟩
  obtain ⟨y, hy, -⟩ := hR.proc hm
  have hlt := (hnet.wired.shaped v m hm).in_lt i q hi
  obtain ⟨r, hr, hlink⟩ := hnet.pure_input hm (hp v m hm) hlt
  rw [hi] at hr
  cases hr
  exact ⟨y, hy, hR.interleaves_values hnet hsc.finished hm hy hi hlink⟩

theorem nodup_one_two : [1, 2].Nodup := by decide

/-- Two sources of one value each before a sink. -/
def twoSources : Pipeline Nat × Finset Id :=
  Pipeline.ofCalls Call.Proper {} [.addSource 1 "one" (.generate (fun k => if k = 0 then some 1 else none)),
    .addSource 2 "two" (.generate (fun k => if k = 0 then some 2 else none)),
      .setSink 3 "sink" .consume ⟨[1, 2], nodup_one_two⟩]

/-- A run of the two sources, the first value from one source and the second from the other. -/
def takeTurns (a b : Id) : List (Event Nat) :=
  (List.replicate 3 a ++ List.replicate 4 3 ++ List.replicate 3 b ++ List.replicate 3 3 ++ List.replicate 5 a ++
    List.replicate 2 3 ++
    List.replicate 5 b ++ List.replicate 3 3).map .run

theorem twoSources_keys : twoSources.1.nodes.keys = {1, 2, 3} := by decide

theorem twoSources_completed {s : State Nat} (h : Running twoSources.1 s)
    (hctl : [1, 2, 3].map (fun u => (s.procs u).map (·.ctl)) = List.replicate 3 (some (.finished none))) :
    s.Completed := by
  refine .of_keys h (fun u hu => ?_)
  rw [twoSources_keys] at hu
  refine Option.map_eq_some_iff.1 (List.eq_of_mem_replicate (n := 3) ?_)
  rw [← hctl]
  exact List.mem_map_of_mem (by simpa using hu)

/-- Either way the run completes, and the sink gets the two values in the order of the turns. -/
theorem takeTurns_ends {a b : Id} (h : a = 1 ∧ b = 2 ∨ a = 2 ∧ b = 1) :
    ∃ s x, (twoSources.1.start (fun _ => []) 0).Reaches s ∧ s.Completed ∧ s.procs 3 = some x ∧ x.calls = [a, b] := by
  have hrun : ((twoSources.1.start (fun _ => []) 0).runAll (takeTurns a b)).map
      (fun s => ([1, 2, 3].map (fun u => (s.procs u).map (·.ctl)), (s.procs 3).map (·.calls))) =
        some (List.replicate 3 (some (.finished none)), some [a, b]) := by
    rcases h with ⟨rfl, rfl⟩ | ⟨rfl, rfl⟩ <;> decide +kernel
  obtain ⟨s, hrun, hend⟩ := Option.map_eq_some_iff.1 hrun
  obtain ⟨hctl, hcalls⟩ := Prod.mk.inj hend
  obtain ⟨x, hx, hcalls⟩ := Option.map_eq_some_iff.1 hcalls
  have hs := State.Reaches.of_runAll (takeTurns a b) hrun
  exact ⟨s, x, hs, twoSources_completed ((built_network (built_ofCalls _ _ _) rfl).running hs) hctl, hx, hcalls⟩

/-- The sink gets the two values in either order; as a multiset they are the same. -/
theorem schedule_independence_two_sources :
    ∃ (p : Pipeline Nat) (U : Finset Id) (s t : State Nat)
    (x y : Proc Nat), Built Call.Proper p U ∧ p.runChecks true = .ok () ∧
      (p.start (fun _ => []) 0).Reaches s ∧ (p.start (fun _ => []) 0).Reaches t ∧ s.procs 3 = some x ∧
      t.procs 3 = some y ∧ x.calls = [1, 2] ∧ y.calls = [2, 1] ∧
      (x.calls : Multiset Nat) = (y.calls : Multiset Nat) := by
  have hb : Built Call.Proper twoSources.1 _ := built_ofCalls _ _ _
  obtain ⟨s, x, hs, hsc, hx, hxc⟩ := takeTurns_ends (.inl ⟨rfl, rfl⟩)
  obtain ⟨t, y, ht, htc, hy, hyc⟩ := takeTurns_ends (.inr ⟨rfl, rfl⟩)
  have hpure : twoSources.1.Pure := by
    intro u n hn
    have hu := PMap.mem_keys_of_get hn
    rw [twoSources_keys, Finset.mem_insert, Finset.mem_insert, Finset.mem_singleton] at hu
    rcases hu with rfl | rfl | rfl <;> cases hn <;> trivial
  obtain ⟨-, hsink, -⟩ := schedule_independence hb rfl hpure hs ht hsc htc
  obtain ⟨x', y', hx', hy', hsum, htsum, -⟩ := hsink 3 _ rfl rfl
  rw [hx] at hx'
  rw [hy] at hy'
  cases hx'
  cases hy'
  exact ⟨_, _, s, t, x, y, hb, rfl, hs, ht, hx, hy, hxc, hyc, hsum.trans htsum.symm⟩

end Tunnel
