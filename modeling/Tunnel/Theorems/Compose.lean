import Tunnel.Lemmas.Occupancy
import Tunnel.Lemmas.Sources
import Tunnel.Lemmas.Splice
import Tunnel.Theorems.Schedule

/-!
# MergePipeline computes composition

A run of the pipeline that `MergePipeline` makes is two runs at once: one of the left pipeline, where each
`NoOpTransform` stands for a sink, and one of the right pipeline, where it stands for a source that generates what the
sink consumes. The queues of the two sides have nothing in common: a queue belongs to the side its reader was made on.
-/

namespace Tunnel

open Lib

variable {V : Type}

/-! ## What is taken -/

variable {p l r : Pipeline V} {U U' : Finset Id} {pre : UserChannel → List (Option V)} {s : State V} {u : Id}
  {n : Processor V} {x y : Proc V} {e : Effect V} {own : Queue → Bool}

/-- What a processor has taken from an input only grows, and not beyond the last EOF. -/
theorem Network.taken_grows (hnet : Network p U) {tokens : Nat} {a : State V} (ha : (p.start pre tokens).Reaches a)
    (h : a.Reaches s) (hn : p.nodes.get u = some n) (hx : a.procs u = some x) (hy : s.procs u = some y) (i : Nat) :
    x.taken i <+: y.taken i ∧ (eofs (x.taken i) = n.need → y.taken i = x.taken i) := by
  suffices hall : Running p s ∧ ∀ y, s.procs u = some y → x.taken i <+: y.taken i ∧
    (eofs (x.taken i) = n.need → y.taken i = x.taken i)
    from hall.2 y hy
  refine h.induct (I := fun s => Running p s ∧ ∀ y, s.procs u = some y → x.taken i <+: y.taken i ∧
    (eofs (x.taken i) = n.need → y.taken i = x.taken i)) ⟨hnet.running ha, fun y hy => ?_⟩ (fun b c e hI _ hm => ?_)
  · cases hx.symm.trans hy
    exact ⟨List.prefix_refl _, fun _ => rfl⟩
  · obtain ⟨hR, hold⟩ := hI
    refine ⟨hR.moves hnet hm, fun y hy => ?_⟩
    rcases hm.turn hy with hb | ⟨z, hz, hturn⟩
    · exact hold y hb
    · obtain ⟨hpre, hend⟩ := hold z hz
      rcases hturn.taken with heq | ⟨j, q, v, hpop, heq⟩
      · rw [heq]
        exact ⟨hpre, hend⟩
      · rw [heq]
        by_cases hij : i = j
        · subst hij
          have hopen := ((hR.inv u n z hn hz).pop_port hpop).2.1.lt
          refine ⟨hpre.trans ?_, fun he => absurd hopen ?_⟩
          · simp [Ports.take]
          · rw [hend he, he]
            exact Nat.lt_irrefl _
        · rw [Ports.taken_take_ne z.toPorts v hij]
          exact ⟨hpre, hend⟩

/-- What a processor of one input has in hand is the next value of all it is going to handle; once it has read its last
EOF there is none. -/
theorem Network.ahead (hnet : Network p U) {tokens : Nat} {a : State V} (ha : (p.start pre tokens).Reaches a)
    (h : a.Reaches s) (hn : p.nodes.get u = some n) (hnin : n.kind.nin = 1) (hx : a.procs u = some x)
    (hy : s.procs u = some y) (hquiet : x.ctl.hosted = false) (hc : y.ctl = .finished none) :
    (∀ i v, x.ctl = .handle i v → y.calls[x.calls.length]? = some v) ∧
    (∀ i, x.ctl = .eof i → y.calls[x.calls.length]? = none) := by
  have hs : (p.start pre tokens).Reaches s := Relation.ReflTransGen.trans ha h
  have hend : (y.taken 0).reduceOption = y.calls := by
    rw [(hnet.flow hs hn hy (by rw [hc]; rfl)).taken_values hnin, hc]
    simp [Ctl.inHand]
  have hnow := (hnet.flow ha hn hx hquiet).taken_values hnin
  obtain ⟨hpre, hlast⟩ := hnet.taken_grows ha h hn hx hy 0
  refine ⟨fun i v hctl => ?_, fun i hctl => ?_⟩
  · obtain ⟨rest, hrest⟩ := hpre
    rw [← hend, ← hrest, List.reduceOption_append, hnow, hctl]
    simp [Ctl.inHand]
  · have hstand := ((hnet.running ha).inv u n x hn hx).standing
    rw [hctl] at hstand
    obtain ⟨hi, hread, -⟩ := hstand
    have heofs := (hread.shut 0 (by omega) (by omega)).eq
    rw [← hend, hlast heofs, hnow, hctl]
    simp [Ctl.inHand]

/-! ## The two sides -/

/-- The queue was made for a reader among these. -/
def Queue.madeFor (U : Finset Id) : Queue → Bool
  | .link r _ _ => r ∈ U
  | .user _ => false

theorem Queue.isLink_of_madeFor {q : Queue} (h : q.madeFor U = true) : q.isLink = true := by
  cases q with
  | link r k c => rfl
  | user ch => cases h

/-- A queue is of one side. -/
theorem Queue.madeFor_of_disjoint (hd : Disjoint U U') {q : Queue} (h : q.madeFor U = true) :
    q.madeFor U' = false := by
  cases q with
  | link r k c => exact decide_eq_false (Finset.disjoint_left.1 hd (of_decide_eq_true h))
  | user ch => rfl

section network

variable {p : Pipeline V} {U : Finset Id} (hw : Wired p U) (hp : p.Pure)
include hw hp

/-- The queues of a pipeline without state are made for its own processors. -/
theorem Wired.in_madeFor {u : Id} {n : Processor V} {i : Nat} {q : Queue} (hn : p.nodes.get u = some n)
    (hi : n.inChan i = some q) :
    q.madeFor U = true := by
  have hlink := (hw.shaped u n hn).in_link i q hi
  rw [(hp u n hn).not_channel.1] at hlink
  cases q with
  | link r k c => exact decide_eq_true (hw.in_mem u n i r k c hn hi)
  | user ch => cases hlink

/-- A processor writes to its own side. -/
theorem Wired.out_madeFor {u : Id} {n : Processor V} {o : Nat} {q : Queue} (hn : p.nodes.get u = some n)
    (ho : n.outChan o = some q) :
    q.madeFor U = true := by
  have hlink := (hw.shaped u n hn).out_link o q ho
  rw [(hp u n hn).not_channel.2] at hlink
  cases q with
  | link r k c => exact decide_eq_true (hw.out_mem u n o r k c hn ho)
  | user ch => cases hlink

end network

/-- A processor does what it does at its own ports. -/
theorem Proc.Does.ports (hd : x.Does e y) (hinv : x.Inv n) :
    (∀ q v, e = .pop q v → ∃ i, n.inChan i = some q) ∧ (∀ q v, e = .push q v → ∃ o, n.outChan o = some q) := by
  cases hd with
  | pop ha v =>
    refine ⟨fun q w h => ?_, nofun⟩
    cases h
    exact ⟨_, (hinv.pop_port ha).2.2⟩
  | push ha =>
    refine ⟨nofun, fun q w h => ?_⟩
    cases h
    exact ⟨_, (hinv.push_port ha).2.2⟩
  | _ => exact ⟨nofun, nofun⟩

/-- What stays inside is seen. -/
theorem Effect.within_eq_self (hpop : ∀ q v, e = .pop q v → own q = true)
    (hpush : ∀ q v, e = .push q v → own q = true) : e.within own = e := by
  cases e with
  | pop q v => rw [within, hpop q v rfl, if_pos rfl]
  | push q v => rw [within, hpush q v rfl, if_pos rfl]
  | silent => rfl

/-- What stays outside is not. -/
theorem Effect.within_eq_silent (hpop : ∀ q v, e = .pop q v → own q = false)
    (hpush : ∀ q v, e = .push q v → own q = false) : e.within own = .silent := by
  cases e with
  | pop q v => rw [within, hpop q v rfl, if_neg Bool.false_ne_true]
  | push q v => rw [within, hpush q v rfl, if_neg Bool.false_ne_true]
  | silent => rfl

/-- A processor of a pipeline without state keeps to the queues made for the pipeline. -/
theorem Wired.does_within (hw : Wired p U) (hp : p.Pure) (hn : p.nodes.get u = some n) (hinv : x.Inv n)
    (hd : x.Does e y) : e.within (Queue.madeFor U) = e := by
  obtain ⟨hpop, hpush⟩ := hd.ports hinv
  refine Effect.within_eq_self (fun q v he => ?_) (fun q v he => ?_)
  · obtain ⟨i, hi⟩ := hpop q v he
    exact hw.in_madeFor hp hn hi
  · obtain ⟨o, ho⟩ := hpush q v he
    exact hw.out_madeFor hp hn ho

/-- It is not seen by a pipeline that has no processor in common with it. -/
theorem Wired.does_outside (hw : Wired p U) (hp : p.Pure) (hU : Disjoint U U') (hn : p.nodes.get u = some n)
    (hinv : x.Inv n) (hd : x.Does e y) :
    e.within (Queue.madeFor U') = .silent := by
  obtain ⟨hpop, hpush⟩ := hd.ports hinv
  refine Effect.within_eq_silent (fun q v he => ?_) (fun q v he => ?_)
  · obtain ⟨i, hi⟩ := hpop q v he
    exact Queue.madeFor_of_disjoint hU (hw.in_madeFor hp hn hi)
  · obtain ⟨o, ho⟩ := hpush q v he
    exact Queue.madeFor_of_disjoint hU (hw.out_madeFor hp hn ho)

/-- How the left pipeline sees a processor of the merged one. -/
def leftView (l : Pipeline V) (u : Id) (x x' : Proc V) : Prop :=
  if u ∈ l.sinks then ∃ m, l.nodes.get u = some m ∧ x' = x.asSink m l.option.bindAbortChannel
    else ∃ b, x' = x.withAbort b

/-- How the right pipeline sees it. -/
def rightView (r : Pipeline V) (u : Id) (x x' : Proc V) : Prop :=
  if u ∈ r.sources then ∃ m, r.nodes.get u = some m ∧ x' = x.asSource m r.option.bindAbortChannel
    else ∃ b, x' = x.withAbort b

theorem leftView_sink {m : Processor V} (hu : u ∈ l.sinks) (hm : l.nodes.get u = some m) :
    leftView l u = fun x x' => x' = x.asSink m l.option.bindAbortChannel := by
  funext x x'
  simp only [leftView, if_pos hu, hm, Option.some.injEq, exists_eq_left']

theorem leftView_other (hu : u ∉ l.sinks) : leftView l u = fun x x' => ∃ b, x' = x.withAbort b := by
  funext x x'
  simp only [leftView, if_neg hu]

theorem leftView_finished {x' : Proc V} (h : leftView l u x x') (hx : x.ctl = .finished none) :
    x'.ctl = .finished none := by
  unfold leftView at h
  split at h
  · obtain ⟨m, -, rfl⟩ := h
    simp [Proc.asSink, hx, Ctl.asSink]
  · obtain ⟨b, rfl⟩ := h
    exact hx

theorem rightView_source {m : Processor V} (hu : u ∈ r.sources) (hm : r.nodes.get u = some m) :
    rightView r u = fun x x' => x' = x.asSource m r.option.bindAbortChannel := by
  funext x x'
  simp only [rightView, if_pos hu, hm, Option.some.injEq, exists_eq_left']

theorem rightView_other (hu : u ∉ r.sources) : rightView r u = fun x x' => ∃ b, x' = x.withAbort b := by
  funext x x'
  simp only [rightView, if_neg hu]

theorem rightView_finished {x' : Proc V} (h : rightView r u x x') (hx : x.ctl = .finished none) :
    x'.ctl = .finished none := by
  unfold rightView at h
  split at h
  · obtain ⟨m, -, rfl⟩ := h
    simp [Proc.asSource, hx, Ctl.asSource]
  · obtain ⟨b, rfl⟩ := h
    exact hx

section merged

variable {l r p : Pipeline V} {UL UR U : Finset Id} {noopId : Nat → Id} (hready : MergeReady l r UL UR noopId)
  (hm : Merged l r noopId p) (hl : Network l UL) (hr : Network r UR) (hnet : Network p U) (hpl : l.Pure) (hpr : r.Pure)

/-- A sink without state consumes. -/
theorem Network.sink_kind (hl : Network l UL) (hpl : l.Pure) {a : Id} (ha : a ∈ l.sinks) :
    ∃ m, l.nodes.get a = some m ∧ m.kind = .sink .consume := by
  obtain ⟨m, hm, hk⟩ := (hl.sound.sinks_iff a).1 ha
  refine ⟨m, hm, ?_⟩
  have hpure := hpl a m hm
  cases hkind : m.kind with
  | sink k =>
    cases k with
    | consume => rfl
    | channel ch => rw [hkind] at hpure; exact absurd hpure not_false
  | _ => rw [hkind] at hk; cases hk

include hready hm

/-- The left pipeline at the start. -/
theorem left_start (pre : UserChannel → List (Option V)) (tokens : Nat) :
    Shadow l (mergedName l.sinks noopId) (Queue.madeFor UL) (leftView l) (p.start pre tokens) (l.start pre 0) := by
  refine ⟨calm_start l pre, fun u hu => ?_, fun q hq => ?_⟩
  · obtain ⟨n, hn⟩ := (l.nodes.mem_keys_iff u).1 hu
    have ht : (l.start pre 0).procs u = some (l.startProc n) := by simp only [Pipeline.start, hn, Option.map_some]
    by_cases hsink : u ∈ l.sinks
    · obtain ⟨i, hi, hui, hname⟩ := hready.exists_name.1 hsink
      obtain ⟨m, t, hm', -, hget⟩ := hm.noop i u _ hui (List.getElem?_eq_getElem (hready.len ▸ hi))
      cases hm'.symm.trans hn
      refine ⟨_, _, by simp only [Pipeline.start, hname, hget, Option.map_some]; rfl, ht, ?_⟩
      rw [leftView_sink hsink hn]
      rfl
    · have hget := hm.left u hu hsink
      refine ⟨p.startProc n, _, by simp only [Pipeline.start, mergedName_of_notMem hsink, hget, hn,
        Option.map_some], ht, ?_⟩
      rw [leftView_other hsink]
      exact ⟨_, rfl⟩
  · cases q with
    | link r k c => rfl
    | user ch => cases hq

/-- The right pipeline at the start. -/
theorem right_start (seqs : List (List V)) (pre : UserChannel → List (Option V)) (tokens : Nat) :
    Shadow (r.withSources seqs) (mergedName r.sources noopId) (Queue.madeFor UR) (rightView (r.withSources seqs))
    (p.start pre tokens)
      ((r.withSources seqs).start pre 0) := by
  refine ⟨calm_start _ pre, fun u hu => ?_, fun q hq => ?_⟩
  · obtain ⟨n, hn⟩ := (r.nodes.mem_keys_iff u).1 hu
    by_cases hsource : u ∈ r.sources
    · obtain ⟨i, hi, hui, hname⟩ := hready.exists_name.2 hsource
      obtain ⟨m, t, -, ht, hget⟩ := hm.noop i _ u (List.getElem?_eq_getElem hi) hui
      cases ht.symm.trans hn
      have hn' := Pipeline.withSources_get seqs hready.soundR.sources_nodup hui hn
      refine ⟨_, _, by simp only [Pipeline.start, hname, hget, Option.map_some]; rfl,
        by simp only [Pipeline.start, hn', Option.map_some]; rfl, ?_⟩
      rw [rightView_source (r := r.withSources seqs) hsource hn']
      rfl
    · have hget := hm.right u hu hsource
      have hn' := Pipeline.withSources_get_of_notMem seqs hsource hn
      refine ⟨p.startProc n, _, by simp only [Pipeline.start, mergedName_of_notMem hsource, hget, hn, Option.map_some],
        by simp only [Pipeline.start, hn', Option.map_some]; rfl, ?_⟩
      rw [rightView_other (r := r.withSources seqs) hsource]
      exact ⟨_, rfl⟩
  · cases q with
    | link r k c => rfl
    | user ch => cases hq

include hl hr hpl hpr

/-- The processor made for the sink `u` goes, seen from the left, along with the sink. -/
theorem left_follows_sink {u : Id} {n : Processor V} {x y : Proc V} {e : Effect V} (hsink : u ∈ l.sinks)
    (hn : p.nodes.get (mergedName l.sinks noopId u) = some n) (hinv : x.Inv n) (hxq : x.ctl.hosted = false)
    (hyq : y.ctl.hosted = false) (hd : x.Does e y) : Follows (Queue.madeFor UL) (leftView l u) x e y := by
  obtain ⟨i, hi, hui, hni⟩ := hready.exists_name.1 hsink
  have hri := List.getElem?_eq_getElem (hready.len ▸ hi)
  obtain ⟨m, t, hm', ht, hget⟩ := hm.noop i u _ hui hri
  obtain ⟨m₀, hm₀, hkind⟩ := hl.sink_kind hpl hsink
  cases hm₀.symm.trans hm'
  obtain ⟨-, htk⟩ := hready.noop_kinds hui hri hm' ht
  rw [hni, hget] at hn
  cases hn
  obtain ⟨hpop, hpush⟩ := hd.ports hinv
  rw [leftView_sink hsink hm']
  refine follows_sink hkind (hinv.kind.trans (mergeSinkAndSource_kind _ _)) hd hxq hyq (fun q v he => ?_) (fun q v he =>
    ?_)
  · obtain ⟨j, hj⟩ := hpop q v he
    rw [mergeSinkAndSource_inChan t (by rw [hkind]; rfl)] at hj
    exact hl.wired.in_madeFor hpl hm' hj
  · obtain ⟨o, ho⟩ := hpush q v he
    rw [mergeSinkAndSource_outChan _ htk] at ho
    exact Queue.madeFor_of_disjoint hready.disjoint.symm (hr.wired.out_madeFor hpr ht ho)

/-- The processor made for the `i`-th source goes, seen from the right, along with the source, when that one generates
what the processor is going to handle. -/
theorem right_follows_source {seqs : List (List V)} {i : Nat} {u : Id} {n : Processor V} {x y : Proc V} {e : Effect V}
    (hi : i < l.sinks.length) (hui : r.sources[i]? = some u) (hn : p.nodes.get (noopId i) = some n) (hinv : x.Inv n)
    (hxq : x.ctl.hosted = false) (hyq : y.ctl.hosted = false) (hd : x.Does e y)
    (hhandle : ∀ j v, x.ctl = .handle j v → ((seqs[i]?).getD [])[x.calls.length]? = some v)
    (heof : ∀ j, x.ctl = .eof j → ((seqs[i]?).getD [])[x.calls.length]? = none) :
    Follows (Queue.madeFor UR) (rightView (r.withSources seqs) u) x e y := by
  have hli := List.getElem?_eq_getElem hi
  obtain ⟨m, t, hm', ht, hget⟩ := hm.noop i _ u hli hui
  obtain ⟨hmk, htk⟩ := hready.noop_kinds hli hui hm' ht
  rw [hget] at hn
  cases hn
  have hn' := Pipeline.withSources_get seqs hready.soundR.sources_nodup hui ht
  obtain ⟨hpop, hpush⟩ := hd.ports hinv
  rw [rightView_source (r := r.withSources seqs) (List.mem_of_getElem? hui) hn']
  refine follows_source rfl (hinv.kind.trans (mergeSinkAndSource_kind _ _)) hd hxq hyq (fun q v he => ?_) (fun q v he =>
    ?_) hhandle heof
  · obtain ⟨j, hj⟩ := hpop q v he
    rw [mergeSinkAndSource_inChan t hmk] at hj
    exact Queue.madeFor_of_disjoint hready.disjoint (hl.wired.in_madeFor hpl hm' hj)
  · obtain ⟨o, ho⟩ := hpush q v he
    rw [mergeSinkAndSource_outChan _ htk] at ho
    exact hr.wired.out_madeFor hpr ht ho

include hnet

/-- A run of the merged pipeline is, seen from the left, a run of the left pipeline. -/
theorem left_run {pre : UserChannel → List (Option V)} {tokens : Nat} {s : State V}
    (hs : (p.start pre tokens).Reaches s) (hquiet : ∀ u x, s.procs u = some x → x.ctl.hosted = false) :
    ∃ t, (l.start pre 0).Runs t ∧ Shadow l (mergedName l.sinks noopId) (Queue.madeFor UL) (leftView l) s t := by
  refine Shadow.run (fun u hu v hv => hready.nameL_inj hu hv) (fun q => Queue.isLink_of_madeFor) hs hquiet
    (left_start hready hm pre tokens) ?_
  intro a b w x e y ha _ hx hy hxq hyq hd
  obtain ⟨n, hn, hinv⟩ := (hnet.running ha).node hx
  refine ⟨fun u hu hname => ?_, fun hnone => ?_⟩
  · by_cases hsink : u ∈ l.sinks
    · exact left_follows_sink hready hm hl hr hpl hpr hsink (hname ▸ hn) hinv hxq hyq hd
    · rw [mergedName_of_notMem hsink] at hname
      subst hname
      have hget : l.nodes.get u = some n := (hm.left u hu hsink).symm.trans hn
      rw [leftView_other hsink]
      exact follows_same hd hxq hyq (hl.wired.does_within hpl hget hinv hd)
  · rcases hm.get_cases hn with ⟨hnot, hget⟩ | ⟨-, hget⟩ | ⟨i, a', b', m, t, hw, ha', -, -, -, -⟩
    · exact absurd (mergedName_of_notMem hnot) (hnone w (PMap.mem_keys_of_get hget))
    · exact hr.wired.does_outside hpr hready.disjoint.symm hget hinv hd
    · refine absurd ?_ (hnone a' ?_)
      · rw [mergedName_getElem noopId hready.soundL.sinks_nodup ha', hw]
      · exact hready.soundL.sink_mem (List.mem_of_getElem? ha')

/-- A run of the merged pipeline is, seen from the right, a run of the right pipeline, its sources generating what the
processors in their place handle. -/
theorem right_run {seqs : List (List V)} {pre : UserChannel → List (Option V)} {tokens : Nat} {s : State V}
    (hs : (p.start pre tokens).Reaches s) (hc : s.Completed)
    (hseqs : ∀ i x, i < l.sinks.length → s.procs (noopId i) = some x → (seqs[i]?).getD [] = x.calls) :
    ∃ t, ((r.withSources seqs).start pre 0).Runs t ∧
      Shadow (r.withSources seqs) (mergedName r.sources noopId) (Queue.madeFor UR) (rightView (r.withSources seqs)) s
      t := by
  have hquiet : ∀ u x, s.procs u = some x → x.ctl.hosted = false := by
    intro u x hx
    rw [hc u x hx]
    rfl
  refine Shadow.run (fun u hu v hv => hready.nameR_inj hu hv) (fun q => Queue.isLink_of_madeFor) hs hquiet
    (right_start hready hm seqs pre tokens) ?_
  intro a b w x e y ha has hx hy hxq hyq hd
  obtain ⟨n, hn, hinv⟩ := (hnet.running ha).node hx
  refine ⟨fun u hu hname => ?_, fun hnone => ?_⟩
  · by_cases hsource : u ∈ r.sources
    · obtain ⟨i, hi, hui, hni⟩ := hready.exists_name.2 hsource
      rw [hni] at hname
      subst hname
      -- what the processor has in hand comes next in all it is going to handle
      obtain ⟨z, hz, -⟩ := (hnet.running hs).proc hn
      have hnin : n.kind.nin = 1 := by
        obtain ⟨m, t, -, -, hget⟩ := hm.noop i _ u (List.getElem?_eq_getElem hi) hui
        cases hget.symm.trans hn
        rfl
      obtain ⟨hhandle, heof⟩ := hnet.ahead ha has hn hnin hx hz hxq (hc _ z hz)
      rw [← hseqs i z hi hz] at hhandle heof
      exact right_follows_source hready hm hl hr hpl hpr hi hui hn hinv hxq hyq hd hhandle heof
    · rw [mergedName_of_notMem hsource] at hname
      subst hname
      have hget : r.nodes.get u = some n := (hm.right u hu hsource).symm.trans hn
      rw [rightView_other (r := r.withSources seqs) hsource]
      exact follows_same hd hxq hyq (hr.wired.does_within hpr hget hinv hd)
  · rcases hm.get_cases hn with ⟨-, hget⟩ | ⟨hnot, hget⟩ | ⟨i, a', b', m, t, hw, -, hb', -, -, -⟩
    · exact hl.wired.does_outside hpl hready.disjoint hget hinv hd
    · exact absurd (mergedName_of_notMem hnot) (hnone w (show w ∈ r.nodes.keys from PMap.mem_keys_of_get hget))
    · refine absurd ?_ (hnone b' ?_)
      · rw [mergedName_getElem noopId hready.soundR.sources_nodup hb', hw]
      · exact hready.soundR.source_mem (List.mem_of_getElem? hb')

end merged

/-! ## Composition -/

/-- What a sink has consumed: what its callback was called with. -/
def State.consumed (s : State V) (u : Id) : List V :=
  match s.procs u with
  | some x => x.calls
  | none => []

/-- A run that goes along with a completed one is completed. -/
theorem Shadow.completed {p' : Pipeline V} {name : Id → Id} {R : Id → Proc V → Proc V → Prop} {t : State V}
    (h : Shadow p' name own R s t) (hnet : Network p' U') (ht : (p'.start pre 0).Runs t) (hc : s.Completed)
    (hR : ∀ u x x', R u x x' → x.ctl = .finished none → x'.ctl = .finished none) : t.Completed := by
  refine State.Completed.of_keys (hnet.running ht.reaches) (fun u hu => ?_)
  obtain ⟨x, x', hx, hx', hview⟩ := h.procs u hu
  exact ⟨x', hx', hR u x x' hview (hc _ x hx)⟩

/-- `MergePipeline` of two pipelines without state, in a run that ends without an exception. There is a run of the left
pipeline alone in which every sink consumes what the `NoOpTransform` in its place reads and passes on. The right
pipeline alone, its sources generating what these sinks consume, comes to an end, and whenever it does, its sinks have
consumed the same values as in the merged pipeline; if it joins no leaves, in the same order. -/
theorem merge_composes {l r p : Pipeline V} {UL UR : Finset Id} {noopId : Nat → Id} (hl : Built Call.Proper l UL)
    (hr : Built Call.Proper r UR) (hdis : Disjoint UL UR) (hnd : ((List.range l.sinks.length).map noopId).Nodup)
    (hnew : ∀ i < l.sinks.length, noopId i ∉ UL ∪ UR) (hne : l.nodes.keys ≠ ∅) (hne' : r.nodes.keys ≠ ∅)
    (hmerge : l.mergePipeline r noopId = .ok p) (hpl : l.Pure) (hpr : r.Pure) {pre : UserChannel → List (Option V)}
    {tokens : Nat} {s : State V} (hs : (p.start pre tokens).Reaches s) (hc : s.Completed) :
    ∃ t, (l.start pre 0).Runs t ∧ t.Completed ∧
      (∀ i a, l.sinks[i]? = some a → s.valuesIn (noopId i) 0 = t.consumed a ∧ s.valuesOut (noopId i) 0 = t.consumed a) ∧
      (∃ w, ((r.withSources (l.sinks.map t.consumed)).start pre 0).Runs w ∧ w.Completed) ∧
      ∀ pre' tokens' w, ((r.withSources (l.sinks.map t.consumed)).start pre' tokens').Reaches w → w.Completed →
      ∀ b ∈ r.sinks,
        (s.consumed b : Multiset V) = w.consumed b ∧ (r.Joinless → s.consumed b = w.consumed b) := by
  obtain ⟨hlc, hrc, ⟨h, -⟩ | ⟨h, -⟩ | ⟨-, -, hready, hm⟩⟩ :=
    mergePipeline_ok (built_sound hl) (built_sound hr) hdis hnd hnew hmerge
  · exact absurd h hne
  · exact absurd h hne'
  have hnl := built_network hl hlc
  have hnr := built_network hr hrc
  have hnet := built_network (.mergePipeline noopId hl hr hdis hnd hnew hmerge) hm.leaves
  obtain ⟨t, ht, hleft⟩ := left_run hready hm hnl hnr hnet hpl hpr hs (fun u x hx => by rw [hc u x hx]; rfl)
  have htc : t.Completed := hleft.completed hnl ht hc (fun u x x' => leftView_finished)
  -- the processor in the place of a sink has handled what the sink consumed
  have hsink : ∀ (i : Nat) a, l.sinks[i]? = some a → ∃ n x, p.nodes.get (noopId i) = some n ∧
      s.procs (noopId i) = some x ∧ n.kind = .transform .noOp ∧ x.calls = t.consumed a := by
    intro i a ha
    have hmem := List.mem_of_getElem? ha
    obtain ⟨hi, -⟩ := List.getElem?_eq_some_iff.1 ha
    obtain ⟨m, m', hm₁, -, hget⟩ := hm.noop i a _ ha (List.getElem?_eq_getElem (hready.len ▸ hi))
    obtain ⟨x, x', hx, hx', hview⟩ := hleft.procs a (hready.soundL.sink_mem hmem)
    rw [mergedName_getElem noopId hready.soundL.sinks_nodup ha] at hx
    rw [leftView_sink hmem hm₁] at hview
    subst hview
    exact ⟨_, x, hget, hx, mergeSinkAndSource_kind _ _, by rw [State.consumed, hx']; rfl⟩
  have hseqs : ∀ i x, i < l.sinks.length → s.procs (noopId i) = some x → ((l.sinks.map t.consumed)[i]?).getD [] =
      x.calls := by
    intro i x hi hx
    obtain ⟨n, y, -, hy, -, hcalls⟩ := hsink i _ (List.getElem?_eq_getElem hi)
    cases hx.symm.trans hy
    rw [List.getElem?_map, List.getElem?_eq_getElem hi]
    exact hcalls.symm
  obtain ⟨w, hw, hright⟩ := right_run hready hm hnl hnr hnet hpl hpr hs hc hseqs
  have hnr' := Pipeline.withSources_network hnr hpr (l.sinks.map t.consumed)
  have hwc : w.Completed := hright.completed hnr' hw hc (fun u x x' => rightView_finished)
  refine ⟨t, ht, htc, fun i a ha => ?_, ⟨w, hw, hwc⟩, fun pre' tokens' w' hw' hwc' b hb => ?_⟩
  · obtain ⟨n, x, hn, hx, hk, hcalls⟩ := hsink i a ha
    have hin := hnet.calls_eq hs hc hn hx (by rw [hk]; rfl)
    have hflow := hnet.flow hs hn hx (by rw [hc _ x hx]; rfl)
    have hout := hflow.copies (o := 0) (by rw [hk]; trivial) (by rw [hk]; rfl) (by rw [hk]; exact Nat.one_pos)
      (fun v => by rw [hk]; rfl)
    rw [hc _ x hx] at hout
    refine ⟨hin.symm.trans hcalls, ?_⟩
    rw [State.valuesOut, hx, ← hcalls]
    simpa [Ctl.todo] using hout
  · obtain ⟨n, hn, hk⟩ := (hready.soundR.sinks_iff b).1 hb
    have hnot : b ∉ r.sources := fun h => hready.soundR.source_not_sink h hb
    have hn' := Pipeline.withSources_get_of_notMem (l.sinks.map t.consumed) hnot hn
    obtain ⟨x, x', hx, hx', hview⟩ := hright.procs b (show b ∈ r.nodes.keys from PMap.mem_keys_of_get hn)
    rw [mergedName_of_notMem hnot] at hx
    rw [rightView_other (r := r.withSources _) hnot] at hview
    obtain ⟨bound, rfl⟩ := hview
    obtain ⟨y, z, hy, hz, hyc, hzc, hj⟩ :=
      hnr'.sinks_agree (Pipeline.withSources_pure hpr _) hw.reaches hw' hwc hwc' hn' hk
    cases hx'.symm.trans hy
    have hs' : s.consumed b = x.calls := by rw [State.consumed, hx]
    have hw'' : w'.consumed b = z.calls := by rw [State.consumed, hz]
    rw [hs', hw'']
    exact ⟨hyc.trans hzc.symm, fun hjoin => hj (Pipeline.withSources_joinless hready.soundR hpr hjoin _)⟩

/-- Two sources of one value, each before a sink. -/
def twoValues : Pipeline Nat × Finset Id :=
  Pipeline.ofCalls Call.Proper {} [.addSource 1 "seven" (.ofList [7]), .setSinkTo 2 "sink" .consume (.single 1),
    .addSource 3 "eight" (.ofList [8]), .setSinkTo 4 "sink" .consume (.single 3)]

/-- Two sources of nothing, before two sinks the other way round. -/
def noValues : Pipeline Nat × Finset Id :=
  Pipeline.ofCalls Call.Proper {} [.addSource 5 "nothing" (.ofList []), .addSource 6 "nothing" (.ofList []),
    .setSinkTo 7 "sink" .consume (.single 6), .setSinkTo 8 "sink" .consume (.single 5)]

/-- `MergePipeline` of the two. -/
def mergedValues : Pipeline Nat := (twoValues.1.mergePipeline noValues.1 (9 + ·)).toOption.getD {}

/-- A value goes from a source through a `NoOpTransform` to a sink, and all three come to their ends. -/
def passValue (source noop sink : Id) : List Id :=
  List.replicate 5 source ++ [noop, noop] ++ List.replicate 3 source ++ List.replicate 6 noop ++ [sink, sink] ++
    List.replicate 3 noop ++
    List.replicate 5 sink

/-- Both values go their ways: every processor returns, and each sink has consumed the value of one source. -/
theorem passValue_ends : ∃ s, (mergedValues.start (fun _ => []) 0).runAll ((passValue 1 9 8 ++
      passValue 3 10 7).map .run) = some s ∧
    (∀ u ∈ mergedValues.nodes.keys, ∃ x, s.procs u = some x ∧ x.ctl = .finished none) ∧ s.consumed 8 = [7] ∧
    s.consumed 7 = [8] := by
  have hkeys : mergedValues.nodes.keys = {1, 3, 7, 8, 9, 10} := by decide +kernel
  have hrun : ((mergedValues.start (fun _ => []) 0).runAll ((passValue 1 9 8 ++ passValue 3 10 7).map .run)).map
      (fun s => ([1, 3, 7, 8, 9, 10].map (fun u => (s.procs u).map (·.ctl)), s.consumed 8, s.consumed 7)) =
        some (List.replicate 6 (some (.finished none)), [7], [8]) := by decide +kernel
  obtain ⟨s, hrun, hend⟩ := Option.map_eq_some_iff.1 hrun
  obtain ⟨hctl, hconsumed⟩ := Prod.mk.inj hend
  refine ⟨s, hrun, fun u hu => ?_, Prod.mk.inj hconsumed⟩
  rw [hkeys] at hu
  refine Option.map_eq_some_iff.1 (List.eq_of_mem_replicate (n := 6) ?_)
  rw [← hctl]
  exact List.mem_map_of_mem (by simpa using hu)

/-- The two pipelines have no state. -/
theorem values_pure : twoValues.1.Pure ∧ noValues.1.Pure := by
  have hl : ∀ v ∈ twoValues.1.nodes.keys, v = 1 ∨ v = 2 ∨ v = 3 ∨ v = 4 := by decide
  have hr : ∀ v ∈ noValues.1.nodes.keys, v = 5 ∨ v = 6 ∨ v = 7 ∨ v = 8 := by decide
  constructor
  · intro u n hn
    rcases hl u (PMap.mem_keys_of_get hn) with rfl | rfl | rfl | rfl <;> cases hn <;> trivial
  · intro u n hn
    rcases hr u (PMap.mem_keys_of_get hn) with rfl | rfl | rfl | rfl <;> cases hn <;> trivial

/-- Each value goes through the processor in the place of its sink and of the source paired with it, to the sink behind
that source. -/
theorem merge_composes_two_values :
    ∃ (l r p : Pipeline Nat) (s t : State Nat), l.mergePipeline r (9 + ·) = .ok p ∧
    (p.start (fun _ => []) 0).Reaches s ∧ s.Completed ∧
      (s.consumed 8 = [7] ∧ s.consumed 7 = [8]) ∧ (l.start (fun _ => []) 0).Runs t ∧ t.Completed ∧
      (s.valuesIn 9 0 = t.consumed 2 ∧ s.valuesOut 9 0 = t.consumed 2) ∧ s.valuesIn 10 0 = t.consumed 4 ∧
      s.valuesOut 10 0 = t.consumed 4 := by
  have hl : Built Call.Proper twoValues.1 twoValues.2 := built_ofCalls _ _ _
  have hr : Built Call.Proper noValues.1 noValues.2 := built_ofCalls _ _ _
  have hdis : Disjoint twoValues.2 noValues.2 := by decide
  have hnd : ((List.range twoValues.1.sinks.length).map (9 + ·)).Nodup := by decide
  have hnew : ∀ i < twoValues.1.sinks.length, 9 + i ∉ twoValues.2 ∪ noValues.2 := by decide
  have hmerge : twoValues.1.mergePipeline noValues.1 (9 + ·) = .ok mergedValues := rfl
  obtain ⟨s, hs, hend, hconsumed⟩ := passValue_ends
  have hrun := State.Reaches.of_runAll _ hs
  have hc : s.Completed := .of_keys ((built_network (.mergePipeline _ hl hr hdis hnd hnew hmerge) rfl).running hrun)
    hend
  obtain ⟨t, ht, htc, hvalues, -, -⟩ :=
    merge_composes hl hr hdis hnd hnew (by decide) (by decide) hmerge values_pure.1 values_pure.2 hrun hc
  exact ⟨_, _, _, s, t, hmerge, hrun, hc, hconsumed, ht, htc, hvalues 0 2 rfl, hvalues 1 4 rfl⟩

end Tunnel
