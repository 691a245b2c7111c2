import Mathlib.Algebra.Order.BigOperators.Group.Finset
import Tunnel.Theorems.Eof

/-!
# Deadlock freedom

A run stands still when every processor has finished or waits, to pop an empty queue or to push to a full one. The
argument goes along the pipeline twice. Downstream, a full queue has a reader that has not finished
(`Running.reader_waits`), so that a chain of waiting writers ends at a `Concat` that reads another input
(`StandstillBut.downstream`). Upstream, an empty queue has a writer that has not finished (`Running.writer_left`), so
that a chain of waiting readers ends at a `Fork` or a `Dispatch` (`StandstillBut.upstream`): a source waits for nobody
but the user. Both chains may also end at a processor that waits for somebody outside the pipeline.
-/

namespace Tunnel

open Lib

variable {V : Type} {p : Pipeline V} {U : Finset Id} {s : State V}

/-! ## Counting EOFs at a queue -/

variable {q : Queue} {u v : Id} {x : Proc V}

/-- What went through a queue of the pipeline is an interleaving of what its writers put there. -/
theorem Running.interleaves (h : Running p s) (hq : q.isLink = true) :
    Interleaves (p.writers q) (fun w => (s.queues q).putBy (.port w.1 w.2)) ((s.queues q).taken ++
      (s.queues q).content) := by
  have hlog : ∀ x ∈ (s.queues q).log, x.1 ∈ (p.writers q).image (fun w => Writer.port w.1 w.2) := by
    intro x hx
    obtain ⟨u, o, hw, hmem⟩ := h.log q hq x hx
    exact Finset.mem_image.2 ⟨(u, o), hmem, hw.symm⟩
  refine Interleaves.of_image (e := fun w : Id × Nat => Writer.port w.1 w.2) (fun a b hab =>
    ?_) ((s.queues q).interleaves _ hlog)
  injection hab with h1 h2
  exact Prod.ext h1 h2

/-- The EOFs that were taken from a queue of the pipeline and those in it are the ones its writers put there. -/
theorem Running.count_eofs (h : Running p s) (hq : q.isLink = true) :
    eofs (s.queues q).taken + eofs (s.queues q).content =
      ∑ w ∈ p.writers q, eofs ((s.queues q).putBy (.port w.1 w.2)) := by
  rw [← eofs_append]
  exact (h.interleaves hq).countP_eq (·.isNone)

/-- Each writer puts one EOF at most. -/
theorem Running.eofs_le_one (hnet : Network p U) (h : Running p s) {w : Id × Nat} (hw : w ∈ p.writers q) :
    eofs ((s.queues q).putBy (.port w.1 w.2)) ≤ 1 := by
  obtain ⟨n, hn, ho⟩ := (p.mem_writers q w.1 w.2).1 hw
  obtain ⟨x, hx, hinv⟩ := h.proc hn
  rw [h.put w.1 n x w.2 q hn hx ho]
  rcases hinv.values_or_ended ((hnet.wired.shaped w.1 n hn).out_lt w.2 q ho) with hv | he
  · rw [hv.eofs_eq]
    exact Nat.zero_le 1
  · exact Nat.le_of_eq he.eofs_eq

/-- As long as an output is open, the reader of its queue waits for an EOF. -/
theorem Running.reader_waits (hnet : Network p U) (h : Running p s) {n m : Processor V} {y : Proc V} {o i : Nat}
    (hn : p.nodes.get u = some n) (hx : s.procs u = some x) (ho : n.outChan o = some q) (hopen : Values (x.put o))
    (hm : p.nodes.get v = some m) (hy : s.procs v = some y) (hi : m.inChan i = some q) (hq : q.isLink = true) :
    eofs (y.taken i) < m.need := by
  have hmem : (u, o) ∈ p.writers q := (p.mem_writers q u o).2 ⟨n, hn, ho⟩
  have hzero : eofs ((s.queues q).putBy (.port u o)) = 0 := by
    rw [h.put u n x o q hn hx ho, hopen.eofs_eq]
  have hlt : ∑ w ∈ p.writers q, eofs ((s.queues q).putBy (.port w.1 w.2)) < ∑ _w ∈ p.writers q, 1 :=
    Finset.sum_lt_sum (fun w hw => h.eofs_le_one hnet hw) ⟨(u, o), hmem, by rw [hzero]; exact Nat.one_pos⟩
  rw [← Finset.card_eq_sum_ones, hnet.wired.count v m i q hm hi hq] at hlt
  have := h.count_eofs hq
  rw [← h.taken v m y i q hm hy hi hq]
  omega

/-- A queue that is empty, and whose reader waits for an EOF, has a writer whose output is open. -/
theorem Running.writer_left (hnet : Network p U) (h : Running p s) {m : Processor V} {y : Proc V} {i : Nat}
    (hm : p.nodes.get v = some m) (hy : s.procs v = some y) (hi : m.inChan i = some q) (hq : q.isLink = true)
    (hwait : eofs (y.taken i) < m.need) (hempty : (s.queues q).content = []) :
    ∃ u n x o, p.nodes.get u = some n ∧ s.procs u = some x ∧ n.outChan o = some q ∧ Values (x.put o) ∧ p.Edge u v := by
  have hcount := h.count_eofs hq
  rw [hempty, h.taken v m y i q hm hy hi hq] at hcount
  have hlt : ∑ w ∈ p.writers q, eofs ((s.queues q).putBy (.port w.1 w.2)) < ∑ _w ∈ p.writers q, 1 := by
    rw [← Finset.card_eq_sum_ones, hnet.wired.count v m i q hm hi hq, ← hcount]
    simpa using hwait
  obtain ⟨w, hw, hlt⟩ := Finset.exists_lt_of_sum_lt hlt
  obtain ⟨n, hn, ho⟩ := (p.mem_writers q w.1 w.2).1 hw
  obtain ⟨x, hx, hinv⟩ := h.proc hn
  rw [h.put w.1 n x w.2 q hn hx ho] at hlt
  refine ⟨w.1, n, x, w.2, hn, hx, ho, ?_, hnet.wired.port_edge w.1 v n m w.2 i q hn hm ho hi hq⟩
  rcases hinv.values_or_ended ((hnet.wired.shaped w.1 n hn).out_lt w.2 q ho) with hv | he
  · exact hv
  · rw [he.eofs_eq] at hlt
    omega

/-- A processor with an open output has not finished. -/
theorem Proc.Inv.not_finished_of_values {n : Processor V} (h : x.Inv n) {o : Nat} (ho : o < n.kind.nout)
    (hv : Values (x.put o)) : x.ctl.isFinished = false := by
  rw [← Bool.not_eq_true]
  intro hf
  have := ((h.finished hf).2 o ho).eofs_eq
  rw [hv.eofs_eq] at this
  omega

/-! ## Waiting -/

/-- The processor waits to pop an empty queue. -/
def State.WaitsPop (s : State V) (x : Proc V) (i : Nat) (q : Queue) :
    Prop := x.action = .pop i q ∧ (s.queues q).content = []

/-- The processor waits to push to a full queue. -/
def State.WaitsPush (s : State V) (x : Proc V) (o : Nat) (q : Queue) : Prop :=
  (∃ v, x.action = .push o q v) ∧ q.capacity ≤ (s.queues q).content.length

/-- A processor that cannot take a step has finished, or waits. -/
theorem State.waits_of_not_canStep (hd : s.dead = false) (hx : s.procs u = some x) (hin : x.ctl.isOut = false)
    (h : s.canStep u = false) :
    x.ctl.isFinished = true ∨ (∃ i q, s.WaitsPop x i q) ∨ ∃ o q, s.WaitsPush x o q := by
  simp only [State.canStep, State.step, hd, Bool.false_eq_true, if_false, hx, Option.bind_some, State.stepProc] at h
  split at h
  · rename_i i q ha
    split at h
    · rename_i hc
      exact Or.inr (Or.inl ⟨i, q, ha, hc⟩)
    · cases h
  · rename_i o q v ha
    split at h
    · cases h
    · rename_i hroom
      exact Or.inr (Or.inr ⟨o, q, ⟨v, ha⟩, by simpa [State.hasRoom] using hroom⟩)
  · cases h
  · cases h
  · cases h
  · rename_i ha
    rcases Proc.action_halt ha with ⟨c, hc⟩ | hc | ⟨d, hc⟩
    · exact Or.inl (by rw [hc]; rfl)
    · rw [hc] at hin
      cases hin
    · rw [hc] at hin
      cases hin

/-- Only processors take steps. -/
theorem State.proc_of_canStep (h : s.canStep u = true) : ∃ x, s.procs u = some x := by
  cases hx : s.procs u with
  | some x => exact ⟨x, rfl⟩
  | none => simp [State.canStep, State.step, hx] at h

/-! ## Chains of waiting processors -/

section chains

/-- Every processor has finished or waits at a queue, but for those that wait for somebody outside; and none waits for a
channel of the user's. -/
structure StandstillBut (outside : Id → Prop) (s : State V) : Prop where
  waits : ∀ u x, s.procs u = some x →
    x.ctl.isFinished = true ∨ (∃ i q, s.WaitsPop x i q) ∨ (∃ o q, s.WaitsPush x o q) ∨ outside u
  pop_link : ∀ u x i q, s.procs u = some x → s.WaitsPop x i q → q.isLink = true
  push_link : ∀ u x o q, s.procs u = some x → s.WaitsPush x o q → q.isLink = true

/-- Every processor has finished or waits at a queue, and none waits for a channel of the user's. -/
abbrev Standstill (s : State V) : Prop := StandstillBut (fun _ => False) s

theorem Standstill.waits (h : Standstill s) (u : Id) (x : Proc V) (hx : s.procs u = some x) :
    x.ctl.isFinished = true ∨ (∃ i q, s.WaitsPop x i q) ∨ ∃ o q, s.WaitsPush x o q := by
  rcases StandstillBut.waits h u x hx with hf | hpop | hpush | hout
  · exact .inl hf
  · exact .inr (.inl hpop)
  · exact .inr (.inr hpush)
  · exact hout.elim

variable {outside : Id → Prop} (hnet : Network p U) (hR : Running p s)
  (hcap : ∀ v m i q, p.nodes.get v = some m → m.inChan i = some q → q.isLink = true → 1 ≤ q.capacity)
include hnet hR hcap

/-- Upstream: a processor that waits to pop has a writer that waits to pop, as long as the writers have one output each.
At a source the chain breaks, so it comes to a processor with several outputs, or to one that waits for somebody
outside. -/
theorem StandstillBut.upstream (hS : StandstillBut outside s) (v : Id) {m : Processor V} {y : Proc V} {i : Nat}
    {q : Queue} (hm : p.nodes.get v = some m) (hy : s.procs v = some y) (hw : s.WaitsPop y i q) :
    ∃ u n, Relation.TransGen p.Edge u v ∧ p.nodes.get u = some n ∧ (outside u ∨ n.kind.isMultiOut = true) := by
  induction v using hnet.sound.ranked.wellFounded.induction generalizing m y i q with
  | _ v ih =>
    have hq := hS.pop_link v y i q hy hw
    obtain ⟨-, hopen, hi⟩ := (hR.inv v m y hm hy).pop_port hw.1
    obtain ⟨u, n, x, o, hn, hx, ho, hval, he⟩ := hR.writer_left hnet hm hy hi hq hopen.lt hw.2
    have hinv := hR.inv u n x hn hx
    have hshaped := hnet.wired.shaped u n hn
    rcases hS.waits u x hx with hf | ⟨j, r, hwait⟩ | ⟨o', r, ⟨w, hpush⟩, hfull⟩ | hout
    · rw [hinv.not_finished_of_values (hshaped.out_lt o q ho) hval] at hf
      cases hf
    · obtain ⟨a, k, ha, hk, hend⟩ := ih u he hn hx hwait
      exact ⟨a, k, ha.tail he, hk, hend⟩
    · refine ⟨u, n, .single he, hn, .inr ?_⟩
      rw [← Bool.not_eq_false]
      intro hsingle
      -- the only output of the writer is before the empty queue
      obtain ⟨ho', -, hr⟩ := hinv.push_port hpush
      have hone := Kind.nout_le_one hsingle
      have hlt := hshaped.out_lt o q ho
      have hoo : o' = o := by omega
      rw [hoo, ho] at hr
      cases hr
      have := hcap v m i q hm hi hq
      rw [hw.2] at hfull
      simp only [List.length_nil] at hfull
      omega
    · exact ⟨u, n, .single he, hn, .inl hout⟩

/-- Downstream: a processor that waits to push has a reader that waits to push, unless that is a `Concat` that waits for
another input, or waits for somebody outside. -/
theorem StandstillBut.downstream (hS : StandstillBut outside s) (u : Id) {x : Proc V} {o : Nat} {q : Queue}
    (hx : s.procs u = some x) (hw : s.WaitsPush x o q) : ∃ v, Relation.TransGen p.Edge u v ∧
      (outside v ∨ ∃ m y i r, p.nodes.get v = some m ∧ s.procs v = some y ∧ m.kind.isMultiIn = true ∧
        s.WaitsPop y i r) := by
  induction u using (hnet.sound.ranked.wellFounded_flip p.nodes.keys
    (fun u v he => (hnet.sound.edge_mem u v he).2)).induction generalizing x o q with
  | _ u ih =>
    obtain ⟨n, hn, hinv⟩ := hR.node hx
    have hq := hS.push_link u x o q hx hw
    obtain ⟨⟨w, hpush⟩, hfull⟩ := hw
    obtain ⟨ho, hopen, hout⟩ := hinv.push_port hpush
    obtain ⟨v, m, i, hm, hi⟩ := hnet.wired.out_read u n o q hn hout hq
    obtain ⟨y, hy, hinvy⟩ := hR.proc hm
    have he := hnet.wired.port_edge u v n m o i q hn hm hout hi hq
    have hlt := hR.reader_waits hnet hn hx hout hopen.values hm hy hi hq
    have hi' := (hnet.wired.shaped v m hm).in_lt i q hi
    rcases hS.waits v y hy with hf | ⟨j, r, hwait⟩ | ⟨o', r, hwait⟩ | hwaits
    · rw [(hinvy.finished hf).1 i hi'] at hlt
      omega
    · obtain ⟨hj, -, hjr⟩ := hinvy.pop_port hwait.1
      by_cases hij : j = i
      · -- the queue would be full and empty
        rw [hij, hi] at hjr
        cases hjr
        have := hcap v m i q hm hi hq
        rw [hwait.2] at hfull
        simp only [List.length_nil] at hfull
        omega
      · have hmulti : m.kind.isMultiIn = true := by
          rw [← Bool.not_eq_false]
          intro hm'
          have := Kind.nin_le_one hm'
          omega
        exact ⟨v, .single he, .inr ⟨m, y, j, r, hm, hy, hmulti, hwait⟩⟩
    · obtain ⟨a, ha, hend⟩ := ih v he hy hwait
      exact ⟨a, .head he ha, hend⟩
    · exact ⟨v, .single he, .inl hwaits⟩

/-- If no `Concat` waits to pop, nobody waits: everything has finished. -/
theorem Standstill.all_finished (hS : Standstill s)
    (hconcat : ∀ v m y i q, p.nodes.get v = some m → s.procs v = some y →
      m.kind.isMultiIn = true → ¬s.WaitsPop y i q) (v : Id) {y : Proc V} (hy : s.procs v = some y) :
      y.ctl.isFinished = true := by
  induction v using hnet.sound.ranked.wellFounded.induction generalizing y with
  | _ v ih =>
    obtain ⟨m, hm, hinv⟩ := hR.node hy
    rcases hS.waits v y hy with hf | ⟨i, q, hwait⟩ | ⟨o, q, hwait⟩
    · exact hf
    · have hq := hS.pop_link v y i q hy hwait
      obtain ⟨-, hopen, hi⟩ := hinv.pop_port hwait.1
      obtain ⟨u, n, x, o, hn, hx, ho, hval, he⟩ := hR.writer_left hnet hm hy hi hq hopen.lt hwait.2
      have hnf := (hR.inv u n x hn hx).not_finished_of_values ((hnet.wired.shaped u n hn).out_lt o q ho) hval
      rw [ih u he hx] at hnf
      cases hnf
    · obtain ⟨a, -, hout | ⟨k, z, j, r, hk, hz, hmulti, hpop⟩⟩ := StandstillBut.downstream hnet hR hcap hS v hy hwait
      · exact hout.elim
      · exact absurd hpop (hconcat a k z j r hk hz hmulti)

end chains

/-- A run in which nobody can take a step but those who wait for somebody outside, no exception left a processor and no
channel node waits for the user stands still. -/
theorem Running.standstill {throws : Prop} {outside : Id → Prop} (hnet : Network p U) (hR : Running p s)
    (hL : Lives p throws s) (hd : s.dead = false) (hescaped : ∀ u x, s.procs u = some x → x.ctl ≠ .escaped)
    (hstuck : ∀ u, ¬outside u → s.canStep u = false)
    (hsource : ∀ u n x q, p.nodes.get u = some n → s.procs u = some x → n.kind.isChannelSource = true →
    n.inChan 0 = some q →
      ¬s.WaitsPop x 0 q)
    (hsink : ∀ u n, p.nodes.get u = some n → n.kind.isChannelSink = false) : StandstillBut outside s := by
  refine ⟨fun u x hx => ?_, fun u x i q hx hw => ?_, fun u x o q hx hw => ?_⟩
  · by_cases hout : outside u
    · exact .inr (.inr (.inr hout))
    have hin : x.ctl.isOut = false := by
      cases hc : x.ctl with
      | escaped => exact absurd hc (hescaped u x hx)
      | dead d =>
        rw [hL.flag u x hx (by rw [hc]; rfl)] at hd
        cases hd
      | _ => rfl
    rcases s.waits_of_not_canStep hd hx hin (hstuck u hout) with hf | hpop | hpush
    · exact .inl hf
    · exact .inr (.inl hpop)
    · exact .inr (.inr (.inl hpush))
  · obtain ⟨n, hn, hinv⟩ := hR.node hx
    obtain ⟨hi, -, hchan⟩ := hinv.pop_port hw.1
    rw [(hnet.wired.shaped u n hn).in_link i q hchan]
    cases hk : n.kind.isChannelSource with
    | false => rfl
    | true =>
      have hi0 : i = 0 := by
        have : n.kind.nin ≤ 1 := Kind.nin_le_one (by cases hkind : n.kind <;> simp_all [Kind.isChannelSource,
          Kind.isMultiIn])
        omega
      rw [hi0] at hchan hw
      exact absurd hw (hsource u n x q hn hx hk hchan)
  · obtain ⟨n, hn, hinv⟩ := hR.node hx
    obtain ⟨⟨v, hpush⟩, -⟩ := hw
    obtain ⟨-, -, hchan⟩ := hinv.push_port hpush
    rw [(hnet.wired.shaped u n hn).out_link o q hchan, hsink u n hn]
    rfl

/-! ## Deadlock freedom -/

/-- In every state of every run of a pipeline without a `ChannelSink`, in which no `Fork` or `Dispatch` is an ancestor
of a `Concat`, and whose callbacks throw only if the abort channel is bound: all processors have finished, or one can
take a step, or a `ChannelSource` waits for the user (it has no channel, or waits to pop it while it is empty). -/
theorem deadlock_free {p : Pipeline V} {U : Finset Id} (hb : Built Call.Proper p U) (hrun : p.runChecks true = .ok ())
    (hcap : ∀ v m i q, p.nodes.get v = some m → m.inChan i = some q → q.isLink = true → 1 ≤ q.capacity)
    (hsink : ∀ u n, p.nodes.get u = some n → n.kind.isChannelSink = false)
    (hconcat : ∀ u v n m, p.nodes.get u = some n → p.nodes.get v = some m → n.kind.isMultiOut = true →
      m.kind.isMultiIn = true → ¬Relation.TransGen p.Edge u v)
    {pre : UserChannel → List (Option V)} {tokens : Nat} {s : State V}
    (hs : (p.start pre tokens).ReachesBy (fun e => e.isThrow = true → p.option.bindAbortChannel = true) s) :
    (∀ u x, s.procs u = some x → x.ctl.isFinished = true) ∨ (∃ u, s.canStep u = true) ∨
      ∃ u n x, p.nodes.get u = some n ∧ s.procs u = some x ∧ n.kind.isChannelSource = true ∧
        (n.inChan 0 = none ∨ ∃ q, n.inChan 0 = some q ∧ s.WaitsPop x 0 q) := by
  have hnet := built_network hb (Pipeline.runChecks_ok hrun).1
  have hR := hnet.running hs.reaches
  have hL : Lives p False s := hnet.lives_by (by simpa using hs)
  by_contra hno
  simp only [not_or] at hno
  obtain ⟨hunfinished, hstuck, hsource⟩ := hno
  have hd : s.dead = false := by
    rw [← Bool.not_eq_true]
    intro hd
    rcases hL.cause hd with ⟨-, hthrows⟩ | ⟨u, n, hn, hbefore⟩
    · exact hthrows
    · obtain ⟨x, hx, -⟩ := hR.proc hn
      rcases hnet.beforeWork hn hbefore with ⟨hk, hnone⟩ | ⟨hk, -⟩
      · exact hsource ⟨u, n, x, hn, hx, hk, Or.inl hnone⟩
      · rw [hsink u n hn] at hk
        cases hk
  have hS : Standstill s := hR.standstill hnet hL hd (fun u x hx hc => (hL.escaped u x hx hc).2)
    (fun u _ => by rw [← Bool.not_eq_true]; exact fun hc => hstuck ⟨u, hc⟩)
    (fun u n x q hn hx hk hq hw => hsource ⟨u, n, x, hn, hx, hk, Or.inr ⟨q, hq, hw⟩⟩) hsink
  refine hunfinished (fun u x hx => hS.all_finished hnet hR hcap (fun v m y i q hm hy hmulti hwait => ?_) u hx)
  obtain ⟨a, k, ha, hk, hout | hk'⟩ := hS.upstream hnet hR hcap v hm hy hwait
  · exact hout
  · exact hconcat a v k m hk hm hk' hmulti ha

/-- `AddSource`, then `SetSink`. -/
def sourceAndSink (k : SourceKind Nat) : Pipeline Nat × Finset Id :=
  Pipeline.ofCalls Call.Proper {} [.addSource 1 "source" k, .setSink 2 "sink" .consume (.single 1)]

/-- A source before a sink: in the state in which both wait to be started, some processor can take a step. -/
theorem deadlock_free_chain :
    ∃ (p : Pipeline Nat) (U : Finset Id) (s : State Nat), Built Call.Proper p U ∧ p.runChecks true = .ok () ∧
      (p.start (fun _ => []) 0).Reaches s ∧ (∃ x, s.procs 1 = some x ∧ x.ctl = .start) ∧ ∃ u, s.canStep u = true := by
  have hb : Built Call.Proper (sourceAndSink (.generate (fun _ => none))).1 _ := built_ofCalls _ _ _
  have hs : State.ReachesBy (fun e => e.isThrow = true →
      (sourceAndSink (.generate (fun _ => none))).1.option.bindAbortChannel = true)
    ((sourceAndSink (.generate (fun _ => none))).1.start (fun _ => []) 0) _ := .refl
  have hkeys : ∀ v ∈ (sourceAndSink (.generate (fun _ => none))).1.nodes.keys, v = 1 ∨ v = 2 := by decide
  have hfree := deadlock_free hb rfl
    (fun v m i q hm hi hq => by
      rcases hkeys v (PMap.mem_keys_of_get hm) with rfl | rfl <;> cases hm <;> cases i <;> cases hi
      decide)
    (fun v m hm => by rcases hkeys v (PMap.mem_keys_of_get hm) with rfl | rfl <;> cases hm <;> rfl)
    (fun v w n m hn hm hout =>
      by rcases hkeys v (PMap.mem_keys_of_get hn) with rfl | rfl <;> cases hn <;> cases hout) hs
  refine ⟨_, _, _, hb, rfl, hs.reaches, ⟨_, rfl, rfl⟩, ?_⟩
  rcases hfree with hfin | hcan | ⟨u, n, x, hn, hx, hk, hwait⟩
  · cases hfin 1 _ rfl
  · exact hcan
  · rcases hkeys u (PMap.mem_keys_of_get hn) with rfl | rfl <;> cases hn <;> cases hk

/-- A run of a `ChannelSource` before a sink stands still when neither of the two can take a step. -/
theorem sourceAndSink_stuck {channel : Option UserChannel} {s : State Nat}
    (hkeys : ∀ v ∈ (sourceAndSink (.channel channel)).1.nodes.keys, v = 1 ∨ v = 2)
    (hs : ((sourceAndSink (.channel channel)).1.start (fun _ => []) 0).Reaches s) (h1 : s.canStep 1 = false)
    (h2 : s.canStep 2 = false) (u : Id) : s.canStep u = false := by
  rw [← Bool.not_eq_true]
  intro hcan
  obtain ⟨x, hx⟩ := State.proc_of_canStep hcan
  obtain ⟨n, hn, -⟩ := ((built_network (built_ofCalls _ _ _) rfl).running hs).node hx
  rcases hkeys u (PMap.mem_keys_of_get hn) with rfl | rfl
  · rw [h1] at hcan
    cases hcan
  · rw [h2] at hcan
    cases hcan

/-- Its queues have room, and none of the two is a `ChannelSink`, a `Fork` or a `Dispatch`. -/
theorem sourceAndSink_plain {channel : Option UserChannel} (hchannel : ∀ ch, channel = some ch → 1 ≤ ch.capacity)
    (hkeys : ∀ v ∈ (sourceAndSink (.channel channel)).1.nodes.keys, v = 1 ∨ v = 2) {m : Processor Nat}
    (hm : (sourceAndSink (.channel channel)).1.nodes.get v = some m) :
    (∀ i q, m.inChan i = some q → 1 ≤ q.capacity) ∧ m.kind.isChannelSink = false ∧ m.kind.isMultiOut = false := by
  rcases hkeys v (PMap.mem_keys_of_get hm) with rfl | rfl
  · cases hm
    refine ⟨fun i q hi => ?_, rfl, rfl⟩
    cases i with
    | zero =>
      obtain ⟨ch, hch, rfl⟩ := Option.map_eq_some_iff.1 hi
      exact hchannel ch hch
    | succ i => cases hi
  · cases hm
    refine ⟨fun i q hi => ?_, rfl, rfl⟩
    cases i <;> cases hi
    exact (by decide : 1 ≤ PipelineOption.channelSize {})

/-- A complete pipeline without `Fork`, `Dispatch` or `ChannelSink`, whose queues have room for an element, comes to a
standstill without any throw, and its sink waits for an element. -/
def Pipeline.Stalls (p : Pipeline Nat) : Prop :=
  ∃ (U : Finset Id) (s : State Nat), Built Call.Proper p U ∧ p.runChecks true = .ok () ∧
    (∀ v m, p.nodes.get v = some m →
      (∀ i q, m.inChan i = some q → 1 ≤ q.capacity) ∧ m.kind.isChannelSink = false ∧ m.kind.isMultiOut = false) ∧
    (p.start (fun _ => []) 0).ReachesBy (fun e => e.isThrow = false) s ∧
    (∀ u, s.canStep u = false) ∧ ∃ x, s.procs 2 = some x ∧ x.ctl = .pop 0

/-- A `ChannelSource` before a sink: with no channel its `before_work` ends the process, and with a channel that the
user never writes it waits to pop it, the sink waits for the `ChannelSource`, and nobody can take a step. -/
theorem channel_source_waits :
    (sourceAndSink (.channel none)).1.Stalls ∧ (sourceAndSink (.channel (some ⟨0, 1⟩))).1.Stalls := by
  have hthrow : ∀ e ∈ ([.run 2, .run 1] : List (Event Nat)), e.isThrow = false := by simp [Event.isThrow]
  constructor
  · have hs := State.ReachesBy.of_runAll (s := (sourceAndSink (.channel none)).1.start (fun _ => []) 0) _ rfl hthrow
    exact ⟨_, _, built_ofCalls _ _ _, rfl, fun v m => sourceAndSink_plain (by simp) (by decide), hs,
      sourceAndSink_stuck (by decide) hs.reaches rfl rfl, _, rfl, rfl⟩
  · have hs := State.ReachesBy.of_runAll (s := (sourceAndSink (.channel (some ⟨0, 1⟩))).1.start (fun _ =>
      []) 0) _ rfl hthrow
    exact ⟨_, _, built_ofCalls _ _ _, rfl, fun v m => sourceAndSink_plain (by simp) (by decide), hs,
      sourceAndSink_stuck (by decide) hs.reaches rfl rfl, _, rfl, rfl⟩

end Tunnel
