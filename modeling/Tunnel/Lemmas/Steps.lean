import Tunnel.Lemmas.Proc
import Tunnel.Theorems.Rooted

/-!
# Steps of a run

`Moves s e s'` lists what a step can be, guards included; every invariant of runs is proved over it. `Running p s` is
the basic one: every processor keeps the EOF discipline, and the histories of its ports are those of the queues they
hold.
-/

namespace Tunnel

open Lib

variable {V : Type}

/-- What a step of a run can be. -/
inductive Moves (s : State V) : Event V → State V → Prop where
  | pop {u : Id} {x : Proc V} {i : Nat} {q : Queue} {v : Option V} {rest : List (Option V)} (hu : s.procs u = some x)
      (ha : x.action = .pop i q) (hq : (s.queues q).content = v :: rest) :
      Moves s (.run u) ((s.setQueue q (s.queues q).pop).setProc u (x.popped i v))
  | push {u : Id} {x : Proc V} {o : Nat} {q : Queue} {v : Option V} (hu : s.procs u = some x) (ha : x.action =
      .push o q v)
      (hq : (s.queues q).content.length < q.capacity) :
      Moves s (.run u) ((s.setQueue q ((s.queues q).push (.port u o) v)).setProc u (x.pushed o v))
  | tryPop {u : Id} {x : Proc V} (hu : s.procs u = some x) (ha : x.action = .tryPop) :
      Moves s (.run u) ({ s with tokens := s.tokens - 1 }.setProc u (x.checked (0 < s.tokens)))
  | tryPush {u : Id} {x : Proc V} (hu : s.procs u = some x) (ha : x.action = .tryPush) :
      Moves s (.run u)
        ({ s with tokens := if s.tokens < s.abortCapacity then s.tokens + 1 else s.tokens }.setProc u x.notified)
  | internal {u : Id} {x : Proc V} (hu : s.procs u = some x) (ha : x.action = .internal) :
      Moves s (.run u) (s.setProc u x.internal)
  | throw {u : Id} {x : Proc V} {standard : Bool} (hu : s.procs u = some x) (hc : x.inCallback = true) :
      Moves s (.throw u standard) (s.setProc u { x with ctl := .threw (.callback standard) })
  | send {ch : UserChannel} {v : Option V} (hq : (s.queues (.user ch)).content.length < ch.capacity) :
      Moves s (.send ch v) (s.setQueue (.user ch) ((s.queues (.user ch)).push .outside v))
  | receive {ch : UserChannel} {v : Option V} {rest : List (Option V)} (hq : (s.queues (.user ch)).content = v ::
      rest) :
      Moves s (.receive ch) (s.setQueue (.user ch) (s.queues (.user ch)).pop)
  | addToken (ht : s.tokens < s.abortCapacity) : Moves s .addToken { s with tokens := s.tokens + 1 }
  | takeToken (ht : 0 < s.tokens) : Moves s .takeToken { s with tokens := s.tokens - 1 }

variable {s s' : State V} {allowed : Event V → Prop} {u : Id} {y x : Proc V} {q : Queue} {p : Pipeline V}
  {U : Finset Id} {n : Processor V}

/-- Every step is one of these, taken while the process lives. -/
theorem State.step_iff {e : Event V} : s.step e = some s' ↔ s.dead = false ∧ Moves s e s' := by
  unfold State.step
  by_cases hd : s.dead = true
  · simp [hd]
  · rw [if_neg hd]
    constructor
    · intro h
      refine ⟨by simpa using hd, ?_⟩
      cases e with
      | run u =>
        obtain ⟨x, hu, h⟩ := Option.bind_eq_some_iff.1 h
        unfold State.stepProc at h
        split at h
        · rename_i i q ha
          split at h
          · cases h
          · rename_i v rest hq
            cases h
            exact .pop hu ha hq
        · rename_i o q v ha
          split at h
          · rename_i hq
            cases h
            exact .push hu ha (of_decide_eq_true hq)
          · cases h
        · cases h
          exact .tryPop hu (by assumption)
        · cases h
          exact .tryPush hu (by assumption)
        · cases h
          exact .internal hu (by assumption)
        · cases h
      | throw u standard =>
        obtain ⟨x, hu, h⟩ := Option.bind_eq_some_iff.1 h
        split at h
        · rename_i hc
          cases h
          exact .throw hu hc
        · cases h
      | send ch v =>
        simp only at h
        split at h
        · rename_i hq
          cases h
          exact .send (of_decide_eq_true hq)
        · cases h
      | receive ch =>
        simp only at h
        split at h
        · cases h
        · rename_i v rest hq
          cases h
          exact .receive hq
      | addToken =>
        simp only at h
        split at h
        · rename_i ht
          cases h
          exact .addToken ht
        · cases h
      | takeToken =>
        simp only at h
        split at h
        · rename_i ht
          cases h
          exact .takeToken ht
        · cases h
    · rintro ⟨-, h⟩
      cases h with
      | pop hu ha hq => simp [hu, State.stepProc, ha, hq]
      | push hu ha hq => simp [hu, State.stepProc, ha, State.hasRoom, hq]
      | tryPop hu ha => simp [hu, State.stepProc, ha]
      | tryPush hu ha => simp [hu, State.stepProc, ha]
      | internal hu ha => simp [hu, State.stepProc, ha]
      | throw hu hc => simp [hu, hc]
      | send hq => simp [State.hasRoom, Queue.capacity, hq]
      | receive hq => simp [hq]
      | addToken ht => simp [ht]
      | takeToken ht => simp [ht]

/-- What holds at the start and is kept by every allowed step holds in every state that a run of such steps reaches. -/
theorem State.ReachesBy.induct {I : State V → Prop} (h : s.ReachesBy allowed s') (h0 : I s)
    (hstep : ∀ a b e, I a → allowed e → a.dead = false → Moves a e b → I b) : I s' := by
  induction h with
  | refl => exact h0
  | tail _ hab ih =>
    obtain ⟨e, hallowed, he⟩ := hab
    obtain ⟨hd, hm⟩ := State.step_iff.1 he
    exact hstep _ _ e ih hallowed hd hm

/-- A run of some steps is a run. -/
theorem State.ReachesBy.reaches (h : s.ReachesBy allowed s') : s.Reaches s' :=
  Relation.ReflTransGen.mono (fun _ _ ⟨e, _, he⟩ => ⟨e, he⟩) _ _ h

/-- A run is one of allowed steps if every step is allowed. -/
theorem State.Reaches.reachesBy (hall : ∀ e, allowed e) (h : s.Reaches s') :
    s.ReachesBy allowed s' :=
  Relation.ReflTransGen.mono (fun _ _ ⟨e, he⟩ => ⟨e, hall e, he⟩) _ _ h

/-- What holds at the start and is kept by every step holds in every state a run reaches. -/
theorem State.Reaches.induct {I : State V → Prop} (h : s.Reaches s') (h0 : I s)
    (hstep : ∀ a b e, I a → a.dead = false → Moves a e b → I b) : I s' := by
  have hrun : s.ReachesBy (fun _ => True) s' := h.reachesBy (fun _ => trivial)
  exact hrun.induct h0 (fun a b e hI _ => hstep a b e hI)

@[simp] theorem State.setProc_queues (s : State V) (u : Id) (x : Proc V) : (s.setProc u x).queues = s.queues := rfl

theorem State.setProc_procs (s : State V) (u : Id) (x : Proc V) (v : Id) :
    (s.setProc u x).procs v = if v = u then some x else s.procs v := by
  by_cases h : v = u
  · subst h; simp [State.setProc]
  · simp [State.setProc, h]

/-- A processor after a step of one. -/
theorem State.setProc_procs_some {v : Id} {z : Proc V} (h : (s.setProc u y).procs v = some z) :
    (v = u ∧ z = y) ∨ (v ≠ u ∧ s.procs v = some z) := by
  rw [State.setProc_procs] at h
  split at h
  · rename_i hvu
    exact .inl ⟨hvu, (Option.some.inj h).symm⟩
  · rename_i hvu
    exact .inr ⟨hvu, h⟩

theorem State.setQueue_queues (s : State V) (q : Queue) (f : Fifo Writer (Option V)) (r : Queue) :
    (s.setQueue q f).queues r = if r = q then f else s.queues r := by
  by_cases h : r = q
  · subst h; simp [State.setQueue]
  · simp [State.setQueue, h]

/-- What the new contents of a queue keep of the old ones, every queue keeps. -/
theorem State.setQueue_keeps {β : Type*} (g : Fifo Writer (Option V) → β) (s : State V) {f : Fifo Writer (Option V)}
    (h : g f = g (s.queues q)) (r : Queue) : g ((s.setQueue q f).queues r) = g (s.queues r) := by
  rw [State.setQueue_queues]
  split
  · rename_i hrq
    rw [hrq, h]
  · rfl

/-! ## Pipelines that `Run` accepts -/

/-- A completed pipeline with the invariants of the builder. -/
structure Network (p : Pipeline V) (U : Finset Id) : Prop where
  sound : Sound p U
  wired : Wired p U
  rooted : Rooted p
  completed : p.leaves = ∅

/-- Proper calls make a network. -/
theorem built_network (h : Built Call.Proper p U) (hc : p.leaves = ∅) : Network p U :=
  ⟨built_sound h, built_wired (fun _ hc => hc.1) h, built_rooted (fun _ hc => hc.2) h, hc⟩

/-- What `Run` checks. -/
theorem Pipeline.runChecks_ok (h : p.runChecks true = .ok ()) : p.leaves = ∅ ∧ p.nodes.keys ≠ ∅ := by
  unfold Pipeline.runChecks at h
  split at h
  · cases h
  · rename_i hl
    split at h
    · cases h
    · rename_i hk
      exact ⟨not_not.1 hl, hk⟩

/-- Its processors are ready. -/
theorem Network.ready (h : Network p U) (hu : p.nodes.get u = some n) :
    n.Ready :=
  ⟨h.wired.shaped u n hu, h.rooted.in_bound u n hu, h.wired.out_bound u n hu (by simp [h.completed])⟩

/-! ## Ports and queues -/

/-- The processors keep the EOF discipline, and what went through a port is what the queue it holds says. -/
structure Running (p : Pipeline V) (s : State V) : Prop where
  dom : ∀ u, (s.procs u).isSome = (p.nodes.get u).isSome
  inv : ∀ u n x, p.nodes.get u = some n → s.procs u = some x → x.Inv n
  put : ∀ u n x o q, p.nodes.get u = some n → s.procs u = some x → n.outChan o = some q →
    (s.queues q).putBy (.port u o) = x.put o
  taken : ∀ u n x i q, p.nodes.get u = some n → s.procs u = some x → n.inChan i = some q → q.isLink = true →
    (s.queues q).taken = x.taken i
  log : ∀ q, q.isLink = true → ∀ w ∈ (s.queues q).log, ∃ u o, w.1 = .port u o ∧ (u, o) ∈ p.writers q
  abort : ∀ u x, s.procs u = some x → x.abortPort = p.option.bindAbortChannel

/-- It holds at the start. -/
theorem running_start (p : Pipeline V) (pre : UserChannel → List (Option V)) (tokens : Nat) :
    Running p (p.start pre tokens) := by
  have hx : ∀ {u n x}, p.nodes.get u = some n → (p.start pre tokens).procs u = some x → x = p.startProc n := by
    intro u n x hn hx
    simp only [Pipeline.start, hn] at hx
    exact (Option.some.inj hx).symm
  refine ⟨fun u =>
    by
    simp [Pipeline.start], fun u n x hn hu => ?_, fun u n x o q hn hu ho => ?_, fun u n x i q hn hu hi hq => ?_,
    fun q hq w hw => ?_, fun u x hu => ?_⟩
  · rw [hx hn hu]
    exact Proc.inv_start p n
  · rw [hx hn hu]
    cases q with
    | link r k c => rfl
    | user ch =>
      simp only [Pipeline.start, Fifo.putBy, streamOf, Fifo.ofList, Pipeline.startProc, List.map_eq_nil_iff,
        List.filter_eq_nil_iff, List.mem_map]
      rintro w ⟨v, -, rfl⟩
      simp
  · rw [hx hn hu]
    cases q with
    | link r k c => rfl
    | user ch => cases hq
  · cases q with
    | link r k c => simp [Pipeline.start, Fifo.ofList] at hw
    | user ch => cases hq
  · obtain ⟨n, -, rfl⟩ := Option.map_eq_some_iff.1 hu
    rfl

/-- Who runs is a node. -/
theorem Running.node (h : Running p s) (hu : s.procs u = some x) :
    ∃ n, p.nodes.get u = some n ∧ x.Inv n := by
  have hd := h.dom u
  rw [hu] at hd
  obtain ⟨n, hn⟩ := Option.isSome_iff_exists.1 hd.symm
  exact ⟨n, hn, h.inv u n x hn hu⟩

/-- A step of one processor: the other processors see no change at their ports, and its own ports agree with the new
queues. -/
theorem Running.update {t : State V} (h : Running p s) (hn : p.nodes.get u = some n) (hu : s.procs u = some x)
    (hprocs : t.procs = s.procs) (hinv : y.Inv n) (habort : y.abortPort = x.abortPort)
    (hput : ∀ o q, n.outChan o = some q → (t.queues q).putBy (.port u o) = y.put o)
    (hothers : ∀ w o q, w ≠ u → (t.queues q).putBy (.port w o) = (s.queues q).putBy (.port w o))
    (htaken : ∀ i q, n.inChan i = some q → q.isLink = true → (t.queues q).taken = y.taken i)
    (hreaders : ∀ w m i q, w ≠ u → p.nodes.get w = some m → m.inChan i = some q → q.isLink = true →
      (t.queues q).taken = (s.queues q).taken)
    (hlog : ∀ q, q.isLink = true → ∀ e ∈ (t.queues q).log, ∃ w o, e.1 = .port w o ∧ (w, o) ∈ p.writers q) :
    Running p (t.setProc u y) := by
  have hother : ∀ {w z}, t.procs w = some z → s.procs w = some z := by
    intro w z hz
    rwa [hprocs] at hz
  refine ⟨fun w => ?_, fun w m z hm hz => ?_, fun w m z o q hm hz ho => ?_, fun w m z i q hm hz hi hq => ?_, hlog,
    fun w z hz => ?_⟩
  · rw [State.setProc_procs]
    split
    · rename_i hwu
      rw [hwu, hn]
      rfl
    · rw [hprocs]
      exact h.dom w
  · rcases State.setProc_procs_some hz with ⟨rfl, rfl⟩ | ⟨hwu, hz⟩
    · cases hn.symm.trans hm
      exact hinv
    · exact h.inv w m z hm (hother hz)
  · rcases State.setProc_procs_some hz with ⟨rfl, rfl⟩ | ⟨hwu, hz⟩
    · cases hn.symm.trans hm
      exact hput o q ho
    · exact (hothers w o q hwu).trans (h.put w m z o q hm (hother hz) ho)
  · rcases State.setProc_procs_some hz with ⟨rfl, rfl⟩ | ⟨hwu, hz⟩
    · cases hn.symm.trans hm
      exact htaken i q hi hq
    · exact (hreaders w m i q hwu hm hi hq).trans (h.taken w m z i q hm (hother hz) hi hq)
  · rcases State.setProc_procs_some hz with ⟨rfl, rfl⟩ | ⟨hwu, hz⟩
    · exact habort.trans (h.abort w x hu)
    · exact h.abort w z (hother hz)

/-- A step that leaves the queues and the ports alone. -/
theorem Running.setProc (h : Running p s) (hu : s.procs u = some x) (hports : y.toPorts = x.toPorts)
    (habort : y.abortPort = x.abortPort) (hinv : ∀ n, p.nodes.get u = some n → y.Inv n) :
    Running p (s.setProc u y) := by
  obtain ⟨n, hn, -⟩ := h.node hu
  refine h.update hn hu rfl (hinv n hn) habort (fun o q ho => ?_) (fun _ _ _ _ => rfl) (fun i q hi hq => ?_)
    (fun _ _ _ _ _ _ _ _ => rfl) h.log
  · rw [show y.put = x.put from congrArg Ports.put hports]
    exact h.put u n x o q hn hu ho
  · rw [show y.taken = x.taken from congrArg Ports.taken hports]
    exact h.taken u n x i q hn hu hi hq

/-- A step outside the processors and the queues of the pipeline. -/
theorem Running.outside (h : Running p s) (hprocs : s'.procs = s.procs)
    (hput : ∀ q u o, (s'.queues q).putBy (.port u o) = (s.queues q).putBy (.port u o))
    (hlink : ∀ q, q.isLink = true → s'.queues q = s.queues q) : Running p s' :=
  ⟨fun u => by rw [hprocs]; exact h.dom u, fun u n x hn hu => h.inv u n x hn (hprocs ▸ hu),
    fun u n x o q hn hu ho => (hput q u o).trans (h.put u n x o q hn (hprocs ▸ hu) ho),
    fun u n x i q hn hu hi hq => by rw [hlink q hq]; exact h.taken u n x i q hn (hprocs ▸ hu) hi hq,
    fun q hq w hw => h.log q hq w (hlink q hq ▸ hw), fun u x hu => h.abort u x (hprocs ▸ hu)⟩

/-- Every node runs. -/
theorem Running.proc (h : Running p s) (hn : p.nodes.get u = some n) :
    ∃ x, s.procs u = some x ∧ x.Inv n := by
  have hd := h.dom u
  rw [hn] at hd
  obtain ⟨x, hx⟩ := Option.isSome_iff_exists.1 hd
  exact ⟨x, hx, h.inv u n x hn hx⟩

/-- A pop keeps it. -/
theorem Running.popped (hnet : Network p U) (h : Running p s) {i : Nat} {v : Option V} {rest : List (Option V)}
    (hu : s.procs u = some x) (ha : x.action = .pop i q) (hq : (s.queues q).content = v :: rest) :
    Running p ((s.setQueue q (s.queues q).pop).setProc u (x.popped i v)) := by
  obtain ⟨n, hn, hinv⟩ := h.node hu
  obtain ⟨-, -, hchan⟩ := hinv.pop_port ha
  obtain ⟨htaken, hput⟩ := Proc.popped_taken ha v
  have hputBy : ∀ w o r, ((s.setQueue q (s.queues q).pop).queues r).putBy (.port w o) =
      (s.queues r).putBy (.port w o) := by
    intro w o r
    exact s.setQueue_keeps (fun f => f.putBy (.port w o)) (Fifo.putBy_pop _ _) r
  refine h.update hn hu rfl (hinv.popped ha v) (Proc.popped_abortPort x i v) (fun o r ho => ?_) (fun w o r _ =>
    hputBy w o r)
    (fun j r hj hr => ?_) (fun w m j r hwu hm hj hr => ?_) (fun r hr e he => ?_)
  · rw [hputBy, hput]
    exact h.put u n x o r hn hu ho
  · rw [State.setQueue_queues]
    by_cases hji : j = i
    · subst hji
      obtain rfl : q = r := Option.some.inj (hchan.symm.trans hj)
      rw [if_pos rfl, Fifo.taken_pop hq, htaken, h.taken u n x j q hn hu hj hr]
      simp [Ports.take]
    · have hrq : r ≠ q := by
        rintro rfl
        exact hji (hnet.wired.reader_unique u n i u n j r hn hn hchan hj hr).2.symm
      rw [if_neg hrq, htaken, Ports.taken_take_ne _ _ hji]
      exact h.taken u n x j r hn hu hj hr
  · -- only this processor reads the queue
    rw [State.setQueue_queues, if_neg]
    rintro rfl
    exact hwu (hnet.wired.reader_unique u n i w m j r hn hm hchan hj hr).1.symm
  · rw [s.setQueue_keeps Fifo.log (Fifo.log_pop _) r] at he
    exact h.log r hr e he

/-- A push keeps it. -/
theorem Running.pushed (h : Running p s) {o : Nat} {v : Option V} (hu : s.procs u = some x)
    (ha : x.action = .push o q v) :
    Running p ((s.setQueue q ((s.queues q).push (.port u o) v)).setProc u (x.pushed o v)) := by
  obtain ⟨n, hn, hinv⟩ := h.node hu
  obtain ⟨-, -, hchan⟩ := hinv.push_port ha
  obtain ⟨hput, htaken⟩ := Proc.pushed_put ha
  have hputBy : ∀ w k r, ¬(w = u ∧ k = o) →
      ((s.setQueue q ((s.queues q).push (.port u o) v)).queues r).putBy (.port w k) =
        (s.queues r).putBy (.port w k) := by
    intro w k r hport
    refine s.setQueue_keeps (fun f => f.putBy (.port w k)) ?_ r
    rw [Fifo.putBy_push, if_neg]
    intro he
    injection he with h1 h2
    exact hport ⟨h1.symm, h2.symm⟩
  have htakenBy : ∀ r, ((s.setQueue q ((s.queues q).push (.port u o) v)).queues r).taken = (s.queues r).taken := by
    intro r
    exact s.setQueue_keeps Fifo.taken (Fifo.taken_push _ _ _) r
  refine h.update hn hu rfl (hinv.pushed ha) (Proc.pushed_abortPort x o v) (fun k r hk => ?_)
    (fun w k r hwu => hputBy w k r (fun hport => hwu hport.1)) (fun j r hj hr => ?_) (fun _ _ _ r _ _ _ _ => htakenBy r)
    (fun r hr e he => ?_)
  · by_cases hko : k = o
    · subst hko
      obtain rfl : q = r := Option.some.inj (hchan.symm.trans hk)
      rw [State.setQueue_queues, if_pos rfl, Fifo.putBy_push, if_pos rfl, hput, Ports.put_give,
        h.put u n x k q hn hu hk]
    · rw [hputBy u k r (fun hport => hko hport.2), hput, Ports.put_give_ne _ _ hko]
      exact h.put u n x k r hn hu hk
  · rw [htakenBy, htaken]
    exact h.taken u n x j r hn hu hj hr
  · rw [State.setQueue_queues] at he
    split at he
    · rename_i hrq
      rw [Fifo.log_push, List.mem_append, List.mem_singleton] at he
      rcases he with he | rfl
      · exact h.log r hr e (hrq ▸ he)
      · exact ⟨u, o, rfl, (p.mem_writers r u o).2 ⟨n, hn, hrq ▸ hchan⟩⟩
    · exact h.log r hr e he

/-- Every step keeps the ports and the queues in agreement. -/
theorem Running.moves {e : Event V} (hnet : Network p U) (h : Running p s) (hm : Moves s e s') : Running p s' := by
  have htokens : ∀ t, Running p { s with tokens := t } := fun t => ⟨h.dom, h.inv, h.put, h.taken, h.log, h.abort⟩
  cases hm with
  | pop hu ha hq => exact h.popped hnet hu ha hq
  | push hu ha hq => exact h.pushed hu ha
  | tryPop hu ha =>
    refine (htokens _).setProc hu (Proc.checked_toPorts _ _) (Proc.checked_abortPort _ _) (fun n hn => ?_)
    exact (h.inv _ n _ hn hu).checked (Proc.action_tryPop ha).2 _
  | tryPush hu ha =>
    obtain ⟨-, c, hc⟩ := Proc.action_tryPush ha
    exact (htokens _).setProc hu (Proc.notified_toPorts _) (Proc.notified_abortPort _) (fun n hn =>
      (h.inv _ n _ hn hu).notified hc)
  | internal hu ha =>
    exact h.setProc hu (Proc.internal_toPorts _) (Proc.internal_abortPort _) (fun n hn =>
      (h.inv _ n _ hn hu).internal (hnet.ready hn) ha)
  | throw hu hc => exact h.setProc hu rfl rfl (fun n hn => (h.inv _ n _ hn hu).throw hc _)
  | @send ch v hq =>
    refine h.outside rfl (fun q u o => ?_) (fun q hl => ?_)
    · refine s.setQueue_keeps (fun f => f.putBy (.port u o)) ?_ q
      rw [Fifo.putBy_push, if_neg (by simp)]
    · rw [State.setQueue_queues, if_neg]
      rintro rfl
      cases hl
  | @receive ch v rest hq =>
    refine h.outside rfl (fun q u o => ?_) (fun q hl => ?_)
    · exact s.setQueue_keeps (fun f => f.putBy (.port u o)) (Fifo.putBy_pop _ _) q
    · rw [State.setQueue_queues, if_neg]
      rintro rfl
      cases hl
  | addToken ht => exact htokens _
  | takeToken ht => exact htokens _

/-- In every state of a run of a pipeline, the ports and the queues agree. -/
theorem Network.running (hnet : Network p U) {pre : UserChannel → List (Option V)} {tokens : Nat}
    (h : (p.start pre tokens).Reaches s) : Running p s :=
  h.induct (running_start p pre tokens) (fun _ _ _ hI _ hm => hI.moves hnet hm)

/-! ## What ends the process -/

/-- What takes a processor out of a run before its end. While the process lives no processor is dead. Without an abort
channel `work` throws only where a callback may throw (`throws`), and a processor gets out only on such an exception, or
in `before_work`, which ends the process. -/
structure Lives (p : Pipeline V) (throws : Prop) (s : State V) : Prop where
  flag : ∀ u x, s.procs u = some x → x.ctl.isDead = true → s.dead = true
  threw : ∀ u x c, s.procs u = some x → x.ctl.threwBy = some c → p.option.bindAbortChannel = true ∨ throws
  escaped : ∀ u x, s.procs u = some x → x.ctl = .escaped → p.option.bindAbortChannel = false ∧ throws
  cause : s.dead = true → (p.option.bindAbortChannel = false ∧ throws) ∨ ∃ u n, p.nodes.get u = some n ∧
    n.beforeWork = false

/-- It holds at the start. -/
theorem lives_start (p : Pipeline V) (throws : Prop) (pre : UserChannel → List (Option V)) (tokens : Nat) :
    Lives p throws (p.start pre tokens) := by
  have hctl : ∀ u x, (p.start pre tokens).procs u = some x → x.ctl = .start := by
    intro u x hx
    obtain ⟨n, -, rfl⟩ := Option.map_eq_some_iff.1 hx
    rfl
  refine ⟨fun u x hx hd => ?_, fun u x c hx hc => ?_, fun u x hx hc => ?_, fun hd => by cases hd⟩
  · rw [hctl u x hx] at hd
    cases hd
  · rw [hctl u x hx] at hc
    cases hc
  · rw [hctl u x hx] at hc
    cases hc

section lives

variable {p : Pipeline V} {U : Finset Id} {throws : Prop} {s s' : State V} {e : Event V}

variable {u : Id}

/-- A processor of a live process moves. -/
theorem Lives.setProc {t : State V} (h : Lives p throws s) (hd : s.dead = false) (hprocs : t.procs = s.procs)
    (htd : t.dead = s.dead) {y : Proc V}
    (hthrew : ∀ c, y.ctl.threwBy = some c → p.option.bindAbortChannel = true ∨ throws)
    (hout : y.ctl.isOut = true → (p.option.bindAbortChannel = false ∧ throws) ∨ y.ctl ≠ .escaped ∧
      ∃ u n, p.nodes.get u = some n ∧ n.beforeWork = false) :
    Lives p throws (t.setProc u y) := by
  refine ⟨fun v z hz hdead => ?_, fun v z c hz hc => ?_, fun v z hz hc => ?_, fun hdead => ?_⟩
  · rcases State.setProc_procs_some hz with ⟨rfl, rfl⟩ | ⟨-, hz⟩
    · simp [State.setProc, hdead]
    · rw [h.flag v z (hprocs ▸ hz) hdead] at hd
      cases hd
  · rcases State.setProc_procs_some hz with ⟨rfl, rfl⟩ | ⟨-, hz⟩
    · exact hthrew c hc
    · exact h.threw v z c (hprocs ▸ hz) hc
  · rcases State.setProc_procs_some hz with ⟨rfl, rfl⟩ | ⟨-, hz⟩
    · rcases hout (by rw [hc]; rfl) with hunbound | ⟨hne, -⟩
      · exact hunbound
      · exact absurd hc hne
    · exact h.escaped v z (hprocs ▸ hz) hc
  · simp only [State.setProc, htd, hd, Bool.false_or] at hdead
    refine (hout ?_).imp_right And.right
    cases hc : y.ctl <;> rw [hc] at hdead <;> first | rfl | cases hdead

/-- A processor moves that is not taken out. -/
theorem Lives.setProc_in {t : State V} (h : Lives p throws s) (hd : s.dead = false) (hprocs : t.procs = s.procs)
    (htd : t.dead = s.dead) {y : Proc V}
    (hthrew : ∀ c, y.ctl.threwBy = some c → p.option.bindAbortChannel = true ∨ throws) (hin : y.ctl.isOut = false) :
    Lives p throws (t.setProc u y) :=
  h.setProc hd hprocs htd hthrew (fun hout => by rw [hin] at hout; cases hout)

/-- A step without a queue takes a processor out in `before_work`, or on an exception without an abort channel. -/
theorem Lives.internal (hnet : Network p U) (hr : Running p s) (h : Lives p throws s) {x : Proc V}
    (hu : s.procs u = some x) (ha : x.action = .internal) (hout : x.internal.ctl.isOut = true) :
    (p.option.bindAbortChannel = false ∧ throws) ∨
      x.internal.ctl ≠ .escaped ∧ ∃ u n, p.nodes.get u = some n ∧ n.beforeWork = false := by
  obtain ⟨n, hn, hinv⟩ := hr.node hu
  rcases Proc.internal_isOut (Proc.isOut_of_action (by rw [ha]; nofun)) hout with hnull | ⟨hc, hb⟩ | ⟨c, hc⟩
  · exact absurd hnull (hinv.internal (hnet.ready hn) ha).not_faulty.2
  · have hstand := hinv.standing
    rw [hc] at hstand
    exact Or.inr ⟨by simp [Proc.internal, hc, hb], u, n, hn, hstand.1 ▸ hb⟩
  · have hport : p.option.bindAbortChannel = false := by
      rw [← hr.abort u x hu]
      by_contra hport
      simp [Proc.action, hc, hport] at ha
    rcases h.threw u x c hu (by rw [hc]; rfl) with hbound | hthrows
    · rw [hport] at hbound
      cases hbound
    · exact Or.inl ⟨hport, hthrows⟩

/-- Every step keeps it, where only a callback that may throw throws. -/
theorem Lives.moves (hnet : Network p U) (hr : Running p s) (h : Lives p throws s)
    (he : e.isThrow = true → p.option.bindAbortChannel = true ∨ throws) (hd : s.dead = false) (hm : Moves s e s') :
    Lives p throws s' := by
  cases hm with
  | @pop u x i q v rest hu ha hq =>
    obtain ⟨n, hn, hinv⟩ := hr.node hu
    refine h.setProc_in (t := s.setQueue q _) hd rfl rfl (fun c hc => ?_) ?_
    · rw [(Proc.popped_threwBy ha v).2] at hc
      cases hc
    · rw [← Bool.not_eq_true]
      exact fun hout => (hinv.popped ha v).not_faulty.1 (Proc.popped_isOut (Proc.isOut_of_action (by rw [ha]; nofun))
        hout)
  | @push u x o q v hu ha hq =>
    refine h.setProc_in (t := s.setQueue q _) hd rfl rfl (fun c hc => ?_)
      (Proc.pushed_isOut (Proc.isOut_of_action (by rw [ha]; nofun)))
    rw [(Proc.pushed_threwBy ha).2] at hc
    cases hc
  | @tryPop u x hu ha =>
    refine h.setProc_in (t := { s with tokens := s.tokens - 1 }) hd rfl rfl (fun c _ => Or.inl ?_)
      (Proc.checked_isOut (Proc.isOut_of_action (by rw [ha]; nofun)))
    rw [← hr.abort u x hu]
    exact (Proc.action_tryPop ha).1
  | @tryPush u x hu ha =>
    refine h.setProc_in (t := { s with tokens := if s.tokens < s.abortCapacity then s.tokens + 1 else s.tokens }) hd rfl
      rfl
      (fun c _ => Or.inl ?_) (Proc.notified_isOut (Proc.isOut_of_action (by rw [ha]; nofun)))
    rw [← hr.abort u x hu]
    exact (Proc.action_tryPush ha).1
  | @internal u x hu ha =>
    refine h.setProc hd rfl rfl (fun c hc => ?_) (h.internal hnet hr hu ha)
    rw [Proc.internal_threwBy x] at hc
    cases hc
  | throw hu hc => exact h.setProc_in hd rfl rfl (fun _ _ => he rfl) rfl
  | send hq => exact ⟨h.flag, h.threw, h.escaped, h.cause⟩
  | receive hq => exact ⟨h.flag, h.threw, h.escaped, h.cause⟩
  | addToken ht => exact ⟨h.flag, h.threw, h.escaped, h.cause⟩
  | takeToken ht => exact ⟨h.flag, h.threw, h.escaped, h.cause⟩

/-- In a run in which callbacks throw only where they may. -/
theorem Network.lives_by (hnet : Network p U) {pre : UserChannel → List (Option V)} {tokens : Nat}
    (h : (p.start pre tokens).ReachesBy (fun e => e.isThrow = true → p.option.bindAbortChannel = true ∨ throws) s) :
    Lives p throws s :=
  (h.induct (I := fun s => Running p s ∧ Lives p throws s) ⟨running_start p pre tokens, lives_start p throws pre tokens⟩
    (fun _ _ _ hI he hd hm => ⟨hI.1.moves hnet hm, hI.2.moves hnet hI.1 he hd hm⟩)).2

/-- In every run, if any callback may throw. -/
theorem Network.lives (hnet : Network p U) {pre : UserChannel → List (Option V)} {tokens : Nat}
    (h : (p.start pre tokens).Reaches s) : Lives p True s :=
  hnet.lives_by (h.reachesBy (fun _ _ => Or.inr trivial))

end lives

/-- Only a channel node can lack what `before_work` asks for. -/
theorem Network.beforeWork (hnet : Network p U) (hn : p.nodes.get u = some n) (hb : n.beforeWork = false) :
    (n.kind.isChannelSource = true ∧ n.inChan 0 = none) ∨ (n.kind.isChannelSink = true ∧ n.outChan 0 = none) := by
  have hs := hnet.wired.shaped u n hn
  cases hk : n.kind with
  | source k => cases k <;> simp_all [Processor.beforeWork, Kind.isChannelSource, Processor.inChan, Kind.isMultiIn]
  | transform k => simp [Processor.beforeWork, hk] at hb
  | sink k => cases k <;> simp_all [Processor.beforeWork, Kind.isChannelSink, Processor.outChan, Kind.isMultiOut]
  | dispatch m pos d =>
    have := (hs.multi_out (by simp [hk, Kind.isMultiOut])).1
    simp_all [Processor.beforeWork, Kind.nout]
  | fork m pos =>
    have := (hs.multi_out (by simp [hk, Kind.isMultiOut])).1
    simp_all [Processor.beforeWork, Kind.nout]
  | concat m pos =>
    have := (hs.multi_in (by simp [hk, Kind.isMultiIn])).1
    simp_all [Processor.beforeWork, Kind.nin]

end Tunnel
