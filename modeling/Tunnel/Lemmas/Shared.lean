import Mathlib.Data.Set.Pairwise.Lattice
import Tunnel.Lemmas.Flow
import Tunnel.Theorems.Abort
import Tunnel.Theorems.Compose
import Tunnel.Theorems.Progress

/-!
# Pipelines that share an abort channel

Several pipelines run at once, on one abort channel (`SetAbortChannel`). As seen from one of them, such a run is a run
of its own in which somebody outside puts tokens into the abort channel and takes them out (`Excerpt`), so that what is
known about the runs of one pipeline holds for each of them.
-/

namespace Tunnel

open Lib Function Relation

variable {V : Type}

/-- Nobody in the pipeline waits forever: its queues have room for an element, no node waits for a channel of the
user's, and no `Fork` or `Dispatch` is an ancestor of a `Concat`. -/
structure Pipeline.Unblocked (p : Pipeline V) : Prop where
  capacity : ∀ v m i q, p.nodes.get v = some m → m.inChan i = some q → q.isLink = true → 1 ≤ q.capacity
  channels : ∀ u n, p.nodes.get u = some n → n.kind.isChannelSource = false ∧ n.kind.isChannelSink = false
  concat : ∀ u v n m, p.nodes.get u = some n → p.nodes.get v = some m → n.kind.isMultiOut = true →
    m.kind.isMultiIn = true → ¬TransGen p.Edge u v

/-- A complete pipeline, built with the ids `U`, that does not end the process: an exception ends in the abort channel,
and `before_work` of no processor throws. -/
structure Guarded (p : Pipeline V) (U : Finset Id) : Prop where
  built : Built Call.Proper p U
  checked : p.runChecks true = .ok ()
  bound : p.option.bindAbortChannel = true
  beforeWork : ∀ u n, p.nodes.get u = some n → n.beforeWork = true

variable {p : Pipeline V} {U : Finset Id} {u : Id} {s : State V} {x : Proc V}

/-- Such a pipeline is a network. -/
theorem Guarded.network (h : Guarded p U) : Network p U :=
  built_network h.built (Pipeline.runChecks_ok h.checked).1

/-- A complete pipeline, built with the ids `U`, that binds an abort channel of this capacity and in which nobody waits
forever. -/
structure Shares (capacity : Nat) (p : Pipeline V) (U : Finset Id) : Prop where
  built : Built Call.Proper p U
  checked : p.runChecks true = .ok ()
  bound : p.option.bindAbortChannel = true
  capacity : (p.start (fun _ => []) 0).abortCapacity = capacity
  unblocked : p.Unblocked

/-- `before_work` fails nowhere. -/
theorem Pipeline.Unblocked.beforeWork (h : p.Unblocked) (hnet : Network p U) {n : Processor V}
    (hn : p.nodes.get u = some n) : n.beforeWork = true := by
  rw [← Bool.not_eq_false]
  intro hb
  obtain ⟨hsource, hsink⟩ := h.channels u n hn
  rcases hnet.beforeWork hn hb with ⟨hk, -⟩ | ⟨hk, -⟩
  · rw [hsource] at hk
    cases hk
  · rw [hsink] at hk
    cases hk

/-- A pipeline of two processors with one output each. -/
theorem Pipeline.Unblocked.of_keys {a b : Id} (hkeys : ∀ u ∈ p.nodes.keys, u = a ∨ u = b)
    (hin : ∀ u n i q, u = a ∨ u = b → p.nodes.get u = some n → n.inChan i = some q → 1 ≤ q.capacity)
    (hkind : ∀ u n, u = a ∨ u = b → p.nodes.get u = some n → n.kind.isChannelSource = false ∧
      n.kind.isChannelSink = false ∧ n.kind.isMultiOut = false) :
    p.Unblocked :=
  ⟨fun v m i q hm hi _ => hin v m i q (hkeys v (PMap.mem_keys_of_get hm)) hm hi,
    fun u n hn => ⟨(hkind u n (hkeys u (PMap.mem_keys_of_get hn)) hn).1,
      (hkind u n (hkeys u (PMap.mem_keys_of_get hn)) hn).2.1⟩,
    fun u v n m hn _ hout => by rw [(hkind u n (hkeys u (PMap.mem_keys_of_get hn)) hn).2.2] at hout; cases hout⟩

/-- When nobody can take a step but those who wait for somebody outside, the pipeline stands still. -/
theorem Pipeline.Unblocked.standstill {outside : Id → Prop} (h : p.Unblocked) (hnet : Network p U)
    {pre : UserChannel → List (Option V)} {tokens : Nat} (hs : (p.start pre tokens).Reaches s) (hd : s.dead = false)
    (hescaped : ∀ u x, s.procs u = some x → x.ctl ≠ .escaped) (hstuck : ∀ u, ¬outside u → s.canStep u = false) :
    StandstillBut outside s :=
  (hnet.running hs).standstill hnet (hnet.lives hs) hd hescaped hstuck
    (fun v n _ _ hn _ hk => by rw [(h.channels v n hn).1] at hk; cases hk) (fun v n hn => (h.channels v n hn).2)

/-- When nobody can take a step, everything has finished. -/
theorem Pipeline.Unblocked.all_finished (h : p.Unblocked) (hnet : Network p U) {pre : UserChannel → List (Option V)}
    {tokens : Nat} (hs : (p.start pre tokens).Reaches s) (hd : s.dead = false)
    (hescaped : ∀ u x, s.procs u = some x → x.ctl ≠ .escaped) (hstuck : ∀ u, s.canStep u = false)
    (hx : s.procs u = some x) : x.ctl.isFinished = true := by
  have hR := hnet.running hs
  have hS : Standstill s := h.standstill hnet hs hd hescaped (fun u _ => hstuck u)
  refine hS.all_finished hnet hR h.capacity (fun v m y i q hm hy hmulti hwait => ?_) u hx
  obtain ⟨a, k, ha, hk, hout | hmultiOut⟩ := hS.upstream hnet hR h.capacity v hm hy hwait
  · exact hout
  · exact h.concat a v k m hk hm hmultiOut hmulti ha

namespace Shares

variable {capacity : Nat} {p : Pipeline V} {U : Finset Id} {u : Id} {n : Processor V}

section

variable (h : Shares capacity p U)
include h

theorem network : Network p U := built_network h.built (Pipeline.runChecks_ok h.checked).1

/-- Each of the pipelines is guarded. -/
theorem guarded : Guarded p U :=
  ⟨h.built, h.checked, h.bound, fun _ _ hn => h.unblocked.beforeWork h.network hn⟩

/-- A run of such a pipeline never ends the process. -/
theorem alive {s : State V} {tokens : Nat} (hs : (p.start (fun _ => []) tokens).Reaches s) : s.dead = false := by
  rw [← Bool.not_eq_true]
  intro hd
  rcases (h.network.lives hs).cause hd with ⟨hbind, -⟩ | ⟨u, n, hn, hb⟩
  · rw [h.bound] at hbind
    cases hbind
  · rw [h.unblocked.beforeWork h.network hn] at hb
    cases hb

/-- The queues at its inputs were made for it. -/
theorem in_own {i : Nat} {q : Queue} (hn : p.nodes.get u = some n) (hq : n.inChan i = some q) :
    ∃ r k c, q = .link r k c ∧ r ∈ U := by
  have hlink := (h.network.wired.shaped u n hn).in_link i q hq
  rw [(h.unblocked.channels u n hn).1] at hlink
  cases q with
  | link r k c => exact ⟨r, k, c, rfl, h.network.wired.in_mem u n i r k c hn hq⟩
  | user ch => cases hlink

/-- A processor writes to queues of its own pipeline. -/
theorem out_own {o : Nat} {q : Queue} (hn : p.nodes.get u = some n) (hq : n.outChan o = some q) :
    ∃ r k c, q = .link r k c ∧ r ∈ U := by
  have hlink := (h.network.wired.shaped u n hn).out_link o q hq
  rw [(h.unblocked.channels u n hn).2] at hlink
  cases q with
  | link r k c => exact ⟨r, k, c, rfl, h.network.wired.out_mem u n o r k c hn hq⟩
  | user ch => cases hlink

end

end Shares

/-! ## Seen from one pipeline -/

/-- The run `t` of one pipeline is what is seen of the run `s` from there. -/
structure Excerpt (p : Pipeline V) (U : Finset Id) (s t : State V) : Prop where
  procs : ∀ u, t.procs u = if u ∈ p.nodes.keys then s.procs u else none
  contents : ∀ q : Queue, q.madeFor U = true → (t.queues q).content = (s.queues q).content
  tokens : t.tokens = s.tokens
  capacity : t.abortCapacity = s.abortCapacity
  dead : t.dead = s.dead

namespace Excerpt

variable {p : Pipeline V} {U : Finset Id} {s t : State V} {u : Id} {x y : Proc V} {q : Queue}

section

variable (h : Excerpt p U s t)
include h

/-- A processor is seen as it is. -/
theorem proc (hu : u ∈ p.nodes.keys) (hx : s.procs u = some x) : t.procs u = some x := by
  rw [h.procs, if_pos hu, hx]

/-- Who is seen is of the pipeline. -/
theorem of_proc (hx : t.procs u = some x) : u ∈ p.nodes.keys ∧ s.procs u = some x := by
  rw [h.procs] at hx
  split at hx
  · rename_i hu
    exact ⟨hu, hx⟩
  · cases hx

/-- A processor of the pipeline moves. -/
theorem setProc (hu : u ∈ p.nodes.keys) (y : Proc V) : Excerpt p U (s.setProc u y) (t.setProc u y) where
  procs v := by
    rw [State.setProc_procs, State.setProc_procs]
    by_cases hv : v = u
    · rw [if_pos hv, if_pos hv, if_pos (hv ▸ hu)]
    · rw [if_neg hv, if_neg hv, h.procs]
  contents := h.contents
  tokens := h.tokens
  capacity := h.capacity
  dead := by rw [State.setProc, State.setProc, h.dead]

/-- A queue changes for both. -/
theorem setQueue {f g : Fifo Writer (Option V)} (hfg : g.content = f.content) :
    Excerpt p U (s.setQueue q f) (t.setQueue q g) where
  procs := h.procs
  contents r hr := by
    rw [State.setQueue_queues, State.setQueue_queues]
    split
    · exact hfg
    · exact h.contents r hr
  tokens := h.tokens
  capacity := h.capacity
  dead := h.dead

theorem setTokens (k : Nat) : Excerpt p U { s with tokens := k } { t with tokens := k } :=
  ⟨h.procs, h.contents, rfl, h.capacity, h.dead⟩

/-- A processor of another pipeline moves, and does not die. -/
theorem setOther (hu : u ∉ p.nodes.keys) (hy : y.ctl.isDead = false) : Excerpt p U (s.setProc u y) t where
  procs v := by
    rw [State.setProc_procs, h.procs]
    split
    · rename_i hv
      rw [if_neg (fun he : v = u => hu (he ▸ hv))]
    · rfl
  contents := h.contents
  tokens := h.tokens
  capacity := h.capacity
  dead := by rw [State.setProc, h.dead, hy, Bool.or_false]

/-- Something happens at a queue of another pipeline. -/
theorem setForeign (hq : ¬q.madeFor U = true) (f : Fifo Writer (Option V)) : Excerpt p U (s.setQueue q f) t where
  procs := h.procs
  contents r hr := by
    rw [State.setQueue_queues, if_neg (fun he : r = q => hq (he ▸ hr))]
    exact h.contents r hr
  tokens := h.tokens
  capacity := h.capacity
  dead := h.dead

/-- Where the whole can take a step of the pipeline, the part can, and the other way round. -/
theorem canStep (hq : ∀ i o q v, s.procs u = some x → x.action = .pop i q ∨ x.action = .push o q v → q.madeFor U = true)
    (hu : u ∈ p.nodes.keys) (hx : s.procs u = some x) : t.canStep u = s.canStep u := by
  simp only [State.canStep, State.step, h.dead, h.proc hu hx, hx, Option.bind_some]
  split
  · rfl
  · unfold State.stepProc
    cases ha : x.action with
    | pop i q =>
      simp only [h.contents q (hq i 0 q none hx (.inl ha))]
      cases (s.queues q).content <;> rfl
    | push o q v =>
      simp only [State.hasRoom, h.contents q (hq 0 o q v hx (.inr ha))]
      by_cases hroom : (s.queues q).content.length < q.capacity <;> simp [hroom]
    | _ => rfl

end

end Excerpt

/-! ## The whole run -/

/-- Every processor is one of the pipelines' and keeps to its discipline, and the process lives. -/
structure Going (ps : List (Pipeline V × Finset Id)) (s : State V) : Prop where
  alive : s.dead = false
  proc : ∀ u x, s.procs u = some x → x.abortPort = true ∧ x.ctl.isOut = false ∧
    ∃ b ∈ ps, ∃ n, b.1.nodes.get u = some n ∧ x.Inv n

/-- A step of a processor, or of its callback, which throws. -/
def State.Turns (u : Id) (s s' : State V) :
    Prop := s.step (.run u) = some s' ∨ ∃ standard, s.step (.throw u standard) = some s'

/-- Such a step is a turn of the processor, and nothing else happens to the processors. -/
theorem State.Turns.turn {s' : State V} (h : s.Turns u s') : ∃ x y, s.procs u = some x ∧ x.Turn y ∧
    s'.procs = update s.procs u (some y) ∧ s'.dead = (s.dead || y.ctl.isDead) := by
  rcases h with h | ⟨standard, h⟩
  · cases (State.step_iff.1 h).2 with
    | pop hu ha hq => exact ⟨_, _, hu, .popped ha _, rfl, rfl⟩
    | push hu ha hq => exact ⟨_, _, hu, .pushed ha, rfl, rfl⟩
    | tryPop hu ha => exact ⟨_, _, hu, .checked ha _, rfl, rfl⟩
    | tryPush hu ha => exact ⟨_, _, hu, .notified ha, rfl, rfl⟩
    | internal hu ha => exact ⟨_, _, hu, .internal ha, rfl, rfl⟩
  · cases (State.step_iff.1 h).2 with
    | throw hu hc => exact ⟨_, _, hu, .throw hc _, rfl, rfl⟩

/-- A run along a list of steps of processors is a sequence of turns. -/
theorem State.Turns.of_runAll {s' : State V} (es : List (Event V)) (hes : es.all (·.proc.isSome) = true)
    (h : s.runAll es = some s') : ReflTransGen (fun s t => ∃ i, State.Turns i s t) s s' := by
  induction es generalizing s with
  | nil =>
    cases h
    exact .refl
  | cons e es ih =>
    rw [List.all_cons, Bool.and_eq_true] at hes
    obtain ⟨t, ht, hrest⟩ := Option.bind_eq_some_iff.1 h
    cases e with
    | run u => exact .head ⟨u, .inl ht⟩ (ih hes.2 hrest)
    | throw u standard => exact .head ⟨u, .inr ⟨standard, ht⟩⟩ (ih hes.2 hrest)
    | _ => cases hes.1

/-- Who has finished takes no turn. -/
theorem State.not_turns (h : ∀ u x, s.procs u = some x → x.ctl.isFinished = true) (u : Id) (t : State V) :
    ¬s.Turns u t := by
  intro ht
  obtain ⟨x, y, hx, hturn, -, -⟩ := ht.turn
  have hfin := h u x hx
  cases hc : x.ctl with
  | finished c =>
    cases hturn with
    | throw hcall standard => simp [Proc.inCallback, hc] at hcall
    | _ ha => simp [Proc.action, hc] at ha
  | _ => rw [hc] at hfin; cases hfin

/-- A processor with an abort channel that passes `before_work` does not end the process, and no exception leaves it. -/
theorem Proc.Turn.alive {n : Processor V} {y : Proc V} (ht : x.Turn y) (hr : n.Ready) (h : x.Inv n)
    (hb : n.beforeWork = true) (hport : x.abortPort = true) (hx : x.ctl.isOut = false) : y.ctl.isOut = false := by
  have hfault := (h.turn hr ht).not_faulty
  cases ht with
  | popped ha v =>
    rw [← Bool.not_eq_true]
    exact fun hd => hfault.1 (Proc.popped_isOut hx hd)
  | pushed ha => exact Proc.pushed_isOut hx
  | checked ha token => exact Proc.checked_isOut hx
  | notified ha => exact Proc.notified_isOut hx
  | internal ha =>
    rw [← Bool.not_eq_true]
    intro hd
    rcases Proc.internal_isOut hx hd with hnull | ⟨hc, hbefore⟩ | ⟨c, hc⟩
    · exact hfault.2 hnull
    · have hstand := h.standing
      rw [hc] at hstand
      rw [hstand.1, hb] at hbefore
      cases hbefore
    · simp [Proc.action, hc, hport] at ha
  | throw hc standard => rfl

/-- A turn leaves the abort channel bound. -/
theorem Proc.Turn.abortPort {y : Proc V} (ht : x.Turn y) : y.abortPort = x.abortPort := by
  cases ht with
  | popped ha v => exact Proc.popped_abortPort ..
  | pushed ha => exact Proc.pushed_abortPort ..
  | checked ha token => exact Proc.checked_abortPort ..
  | notified ha => exact Proc.notified_abortPort _
  | internal ha => exact Proc.internal_abortPort _
  | throw hc standard => rfl

/-- Finitely many finite sets lie in one. -/
theorem exists_cover {α β : Type} [DecidableEq β] (l : List α) (f : α → Finset β) :
    ∃ W : Finset β, ∀ a ∈ l, f a ⊆ W := by
  induction l with
  | nil => exact ⟨∅, fun a ha => by cases ha⟩
  | cons b l ih =>
    obtain ⟨W, hW⟩ := ih
    refine ⟨f b ∪ W, fun a ha => ?_⟩
    rcases List.mem_cons.1 ha with rfl | ha
    · exact Finset.subset_union_left
    · exact (hW a ha).trans Finset.subset_union_right

section guarded

variable {ps : List (Pipeline V × Finset Id)} (hps : ∀ b ∈ ps, Guarded b.1 b.2)
include hps

/-- It holds at the start. -/
theorem going_startAll (capacity : Nat) : Going ps (startAll (ps.map Prod.fst) capacity) := by
  refine ⟨rfl, fun u x hx => ?_⟩
  obtain ⟨p, hp, hx⟩ := List.exists_of_findSome?_eq_some hx
  obtain ⟨b, hb, rfl⟩ := List.mem_map.1 hp
  obtain ⟨n, hn, rfl⟩ := Option.map_eq_some_iff.1 hx
  exact ⟨(hps b hb).bound, rfl, b, hb, n, hn, Proc.inv_start b.1 n⟩

/-- A turn keeps it. -/
theorem Going.turns {s s' : State V} {u : Id} (h : Going ps s) (ht : s.Turns u s') : Going ps s' := by
  obtain ⟨x, y, hx, hturn, hprocs, hdead⟩ := ht.turn
  obtain ⟨hport, hlive, b, hb, n, hn, hinv⟩ := h.proc u x hx
  have hnet := (hps b hb).network
  have hy : y.ctl.isOut = false :=
    hturn.alive (hnet.ready hn) hinv ((hps b hb).beforeWork u n hn) hport hlive
  refine ⟨by rw [hdead, h.alive, Ctl.not_dead_of_in hy, Bool.or_false], fun v z hz => ?_⟩
  rw [hprocs] at hz
  by_cases hv : v = u
  · subst hv
    rw [update_self] at hz
    cases hz
    exact ⟨hturn.abortPort.trans hport, hy, b, hb, n, hn, hinv.turn (hnet.ready hn) hturn⟩
  · rw [update_of_ne hv] at hz
    exact h.proc v z hz

/-- So does a run. -/
theorem Going.reaches {s s' : State V} (h : Going ps s) (hs : ReflTransGen (fun s t => ∃ i, State.Turns i s t) s s') :
    Going ps s' := by
  induction hs with
  | refl => exact h
  | tail _ hstep ih =>
    obtain ⟨i, hi⟩ := hstep
    exact ih.turns hps hi

end guarded

section runs

variable {capacity : Nat} {ps : List (Pipeline V × Finset Id)} (hps : ∀ b ∈ ps, Shares capacity b.1 b.2)
include hps

variable {s : State V} {u : Id} {x : Proc V} {i o : Nat} {q : Queue} {v : Option V} {b : Pipeline V × Finset Id}

/-- A processor touches queues of its own pipeline only. -/
theorem Going.madeFor (h : Going ps s) (hx : s.procs u = some x) (ha : x.action = .pop i q ∨ x.action = .push o q v) :
    ∃ b ∈ ps, u ∈ b.1.nodes.keys ∧ q.madeFor b.2 = true := by
  obtain ⟨-, -, b, hb, n, hn, hinv⟩ := h.proc u x hx
  refine ⟨b, hb, PMap.mem_keys_of_get hn, ?_⟩
  rcases ha with ha | ha
  · obtain ⟨r, k, c, rfl, hr⟩ := (hps b hb).in_own hn (hinv.pop_port ha).2.2
    exact decide_eq_true hr
  · obtain ⟨r, k, c, rfl, hr⟩ := (hps b hb).out_own hn (hinv.push_port ha).2.2
    exact decide_eq_true hr

variable (hdisj : {b | b ∈ ps}.PairwiseDisjoint Prod.snd)
include hdisj

omit hps in
/-- An id belongs to one pipeline. -/
theorem pipeline_unique {b' : Pipeline V × Finset Id} (hb : b ∈ ps) (hb' : b' ∈ ps) (hu : u ∈ b.2) (hu' : u ∈ b'.2) :
    b = b' := by
  by_contra hne
  exact Finset.disjoint_left.1 (hdisj hb hb' hne) hu hu'

/-- The pipeline of a processor is the one with its id. -/
theorem Going.own (h : Going ps s) (hb : b ∈ ps) (hu : u ∈ b.1.nodes.keys) (hx : s.procs u = some x)
    (ha : x.action = .pop i q ∨ x.action = .push o q v) :
    q.madeFor b.2 = true := by
  obtain ⟨b', hb', hu', hq⟩ := h.madeFor hps hx ha
  cases pipeline_unique hdisj hb hb' ((hps b hb).network.sound.keys hu) ((hps b' hb').network.sound.keys hu')
  exact hq

/-- Processors of others leave the queues of a pipeline alone. -/
theorem Going.foreign (h : Going ps s) (hb : b ∈ ps) (hu : u ∉ b.1.nodes.keys) (hx : s.procs u = some x)
    (ha : x.action = .pop i q ∨ x.action = .push o q v) :
    ¬q.madeFor b.2 = true := by
  obtain ⟨b', hb', hu', hq⟩ := h.madeFor hps hx ha
  intro hq'
  cases q with
  | link r k c =>
    cases pipeline_unique hdisj hb hb' (of_decide_eq_true hq') (of_decide_eq_true hq)
    exact hu hu'
  | user ch => cases hq

/-- A step of the whole, seen from a pipeline: the same step, a token more or less, or nothing. -/
theorem Excerpt.turns {s' t : State V} (hgo : Going ps s) (hb : b ∈ ps) (h : Excerpt b.1 b.2 s t) (ht : s.Turns u s') :
    ∃ t', t.Reaches t' ∧ Excerpt b.1 b.2 s' t' := by
  have hd : t.dead = false := h.dead.trans hgo.alive
  have hgo' := hgo.turns (fun b hb => (hps b hb).guarded) ht
  by_cases hu : u ∈ b.1.nodes.keys
  · have hone : ∀ {e t'}, Moves t e t' → t.Reaches t' := fun hm => .single ⟨_, State.step_iff.2 ⟨hd, hm⟩⟩
    rcases ht with ht | ⟨standard, ht⟩
    · cases (State.step_iff.1 ht).2 with
      | @pop _ x i q v rest hx ha hq =>
        have hcontent := h.contents q (hgo.own (o := 0) (v := none) hps hdisj hb hu hx (.inl ha))
        exact ⟨_, hone (.pop (h.proc hu hx) ha (hcontent.trans hq)), (h.setQueue (by simp [hcontent])).setProc hu _⟩
      | @push _ x o q v hx ha hq =>
        have hcontent := h.contents q (hgo.own (i := 0) hps hdisj hb hu hx (.inr ha))
        exact ⟨_, hone (.push (h.proc hu hx) ha (hcontent ▸ hq)), (h.setQueue (by simp [hcontent])).setProc hu _⟩
      | @tryPop _ x hx ha =>
        refine ⟨_, hone (.tryPop (h.proc hu hx) ha), ?_⟩
        rw [h.tokens]
        exact (h.setTokens _).setProc hu _
      | @tryPush _ x hx ha =>
        refine ⟨_, hone (.tryPush (h.proc hu hx) ha), ?_⟩
        have htokens : (if t.tokens < t.abortCapacity then t.tokens + 1 else t.tokens) =
            if s.tokens < s.abortCapacity then s.tokens + 1 else s.tokens := by rw [h.tokens, h.capacity]
        rw [htokens]
        exact (h.setTokens _).setProc hu _
      | @internal _ x hx ha => exact ⟨_, hone (.internal (h.proc hu hx) ha), h.setProc hu _⟩
    · cases (State.step_iff.1 ht).2 with
      | @throw _ x _ hx hc => exact ⟨_, hone (.throw (h.proc hu hx) hc), h.setProc hu _⟩
  · -- the step of another pipeline: what it does to the tokens is done by somebody outside
    have hlive : ∀ {y}, s'.procs u = some y → y.ctl.isDead = false :=
      fun hy => Ctl.not_dead_of_in (hgo'.proc u _ hy).2.1
    rcases ht with ht | ⟨standard, ht⟩
    · cases (State.step_iff.1 ht).2 with
      | @pop _ x i q v rest hx ha hq =>
        have hforeign := hgo.foreign (o := 0) (v := none) hps hdisj hb hu hx (.inl ha)
        exact ⟨t, .refl, (h.setForeign hforeign _).setOther hu (hlive (update_self ..))⟩
      | @push _ x o q v hx ha hq =>
        have hforeign := hgo.foreign (i := 0) hps hdisj hb hu hx (.inr ha)
        exact ⟨t, .refl, (h.setForeign hforeign _).setOther hu (hlive (update_self ..))⟩
      | @tryPop _ x hx ha =>
        have hy := hlive (update_self ..)
        rcases Nat.eq_zero_or_pos s.tokens with hzero | hpos
        · refine ⟨t, .refl, Excerpt.setOther ?_ hu hy⟩
          rw [hzero]
          exact ⟨h.procs, h.contents, h.tokens.trans hzero, h.capacity, h.dead⟩
        · refine ⟨_, .single ⟨.takeToken, State.step_iff.2 ⟨hd, .takeToken (h.tokens ▸ hpos)⟩⟩,
            Excerpt.setOther ?_ hu hy⟩
          rw [h.tokens]
          exact h.setTokens _
      | @tryPush _ x hx ha =>
        have hy := hlive (update_self ..)
        by_cases hroom : s.tokens < s.abortCapacity
        · refine ⟨_, .single ⟨.addToken, State.step_iff.2 ⟨hd, .addToken (by rw [h.tokens, h.capacity]; exact hroom)⟩⟩,
            Excerpt.setOther ?_ hu hy⟩
          rw [h.tokens, if_pos hroom]
          exact h.setTokens _
        · refine ⟨t, .refl, Excerpt.setOther ?_ hu hy⟩
          rw [if_neg hroom]
          exact ⟨h.procs, h.contents, h.tokens, h.capacity, h.dead⟩
      | @internal _ x hx ha => exact ⟨t, .refl, h.setOther hu (hlive (update_self ..))⟩
    · cases (State.step_iff.1 ht).2 with
      | @throw _ x _ hx hc => exact ⟨t, .refl, h.setOther hu rfl⟩

/-- At the start, a pipeline sees the state its own `Run` starts in. -/
theorem excerpt_startAll (hb : b ∈ ps) :
    Excerpt b.1 b.2 (startAll (ps.map Prod.fst) capacity) (b.1.start (fun _ => []) 0) where
  procs u := by
    have hfind : ∀ l : List (Pipeline V × Finset Id), (∀ c ∈ l, c ∈ ps) → b ∈ l → u ∈ b.1.nodes.keys →
        (l.map Prod.fst).findSome? (fun p => (p.nodes.get u).map p.startProc) =
          (b.1.nodes.get u).map b.1.startProc := by
      intro l hl hbl hu
      induction l with
      | nil => cases hbl
      | cons c l ih =>
        obtain ⟨n, hn⟩ := (b.1.nodes.mem_keys_iff u).1 hu
        cases hc : c.1.nodes.get u with
        | some m =>
          cases pipeline_unique hdisj hb (hl c (.head l)) ((hps b hb).network.sound.keys hu)
            ((hps c (hl c (.head l))).network.sound.keys (PMap.mem_keys_of_get hc))
          simp [hn]
        | none =>
          rcases List.mem_cons.1 hbl with rfl | hbl
          · rw [hn] at hc
            cases hc
          · simp only [List.map_cons, List.findSome?_cons, hc, Option.map_none]
            exact ih (fun d hd => hl d (.tail c hd)) hbl
    show (b.1.nodes.get u).map b.1.startProc = _
    split
    · rename_i hu
      exact (hfind ps (fun _ h => h) hb hu).symm
    · rename_i hu
      rw [(b.1.nodes.get_eq_none_iff u).2 hu]
      rfl
  contents q hq := by
    cases q with
    | link r k c => rfl
    | user ch => cases hq
  tokens := rfl
  capacity := (hps b hb).capacity
  dead := rfl

/-- Each pipeline sees a run of its own. -/
theorem startAll_excerpts
    (hs : ReflTransGen (fun s t => ∃ i, State.Turns i s t) (startAll (ps.map Prod.fst) capacity) s) :
    Going ps s ∧ s.abortCapacity = capacity ∧ ∀ b ∈ ps, ∃ t, (b.1.start (fun _ => []) 0).Reaches t ∧
    Excerpt b.1 b.2 s t := by
  induction hs with
  | refl =>
    exact ⟨going_startAll (fun b hb => (hps b hb).guarded) capacity, rfl,
      fun b hb => ⟨_, .refl, excerpt_startAll hps hdisj hb⟩⟩
  | tail _ hstep ih =>
    obtain ⟨hgo, hcap, hexcerpts⟩ := ih
    obtain ⟨i, ht⟩ := hstep
    refine ⟨hgo.turns (fun b hb => (hps b hb).guarded) ht, ?_, fun b hb => ?_⟩
    · rcases ht with ht | ⟨_, ht⟩ <;> rw [(State.step_iff.1 ht).2.abortCapacity, hcap]
    · obtain ⟨a, ha, hexcerpt⟩ := hexcerpts b hb
      obtain ⟨a', ha', hexcerpt'⟩ := hexcerpt.turns hps hdisj hgo hb ht
      exact ⟨a', ha.trans ha', hexcerpt'⟩

/-- Where nobody can take a turn, everything has finished. -/
theorem finished_of_still
    (hs : ReflTransGen (fun s t => ∃ i, State.Turns i s t) (startAll (ps.map Prod.fst) capacity) s)
    (hstill : ∀ u t, ¬s.Turns u t) {v : Id} {y : Proc V} (hy : s.procs v = some y) : y.ctl.isFinished = true := by
  -- nobody can take a step, so nobody can in the run that its pipeline sees
  obtain ⟨hgo, -, hexcerpts⟩ := startAll_excerpts hps hdisj hs
  obtain ⟨-, -, b, hb, k, hk, -⟩ := hgo.proc v y hy
  obtain ⟨t, ht, hexcerpt⟩ := hexcerpts b hb
  have hstuck : ∀ w, t.canStep w = false := by
    intro w
    rw [← Bool.not_eq_true]
    intro hcan
    obtain ⟨z, hz⟩ := State.proc_of_canStep hcan
    obtain ⟨hw, hz⟩ := hexcerpt.of_proc hz
    rw [hexcerpt.canStep (fun i o q v hz' ha => hgo.own hps hdisj hb hw hz' ha) hw hz] at hcan
    obtain ⟨t', ht'⟩ := Option.isSome_iff_exists.1 hcan
    exact hstill w t' (.inl ht')
  have hescaped : ∀ w z, t.procs w = some z → z.ctl ≠ .escaped := by
    intro w z hz hc
    have hin := (hgo.proc w z (hexcerpt.of_proc hz).2).2.1
    rw [hc] at hin
    cases hin
  exact (hps b hb).unblocked.all_finished (hps b hb).network ht ((hps b hb).alive ht) hescaped hstuck
    (hexcerpt.proc (PMap.mem_keys_of_get hk) hy)

end runs

end Tunnel
