import Mathlib.Data.Set.Finite.Basic
import Tunnel.Lemmas.Shared
import Tunnel.Locked
import Tunnel.Theorems.BoundedQueue
import Tunnel.Theorems.Schedule

/-!
# The locks do not show

The rules for agents on monitors, at the processors and their queues: pipelines on their locks do nothing that pipelines
with atomic queues do not do, and where nobody can take a step, everything has finished.
-/

namespace Tunnel

open Lib Function Relation

variable {V : Type}

/-- The calls on the queues of these pipelines, one behind the other. -/
abbrev queueEffect (V : Type) (capacity : Nat) (q : Option Queue) :
    List (Item V q) → QueueOp (Item V q) → QueueRes (Item V q) → List (Item V q) → Prop :=
  BoundedQueue.Effect (capacities capacity q)

section resume

variable {x : Proc V} {i o : Nat} {q r : Queue} {v : Option V}

theorem Proc.agents_resume_pop (ha : x.action = .pop i r) (v : Option V) :
    (Proc.agents V).resume x (some q) (.popped v) = x.popped i v := by
  simp only [Proc.agents, Proc.resume, ha]

theorem Proc.agents_resume_push (ha : x.action = .push o r v) :
    (Proc.agents V).resume x (some q) .pushed = x.pushed o v := by
  simp only [Proc.agents, Proc.resume, ha]

theorem Proc.agents_resume_tryPop (ha : x.action = .tryPop) {queue queue' : List (Item V none)}
    {res : QueueRes (Item V none)} {capacity : Nat} (h : BoundedQueue.Effect capacity queue .tryPop res queue') :
    (Proc.agents V).resume x none res = x.checked (decide (0 < queue.length)) ∧ queue'.length = queue.length - 1 := by
  cases h with
  | tryPop v rest => simp [Proc.agents, Proc.resume, ha]
  | empty => simp [Proc.agents, Proc.resume, ha]

theorem Proc.agents_resume_tryPush (ha : x.action = .tryPush) (res : QueueRes (Item V none)) :
    (Proc.agents V).resume x none res = x.notified := by
  simp only [Proc.agents, Proc.resume, ha]

end resume

/-! ## Atomic queues -/

section mirrors

variable {ps : List (Pipeline V)} {capacity : Nat}

/-- The agents and their queues as a state of the run model: the abort channel is known by how many tokens it holds. -/
structure Mirrors (capacity : Nat) (t : Agents.State (Members ps) (Proc V) (fun q => List (Item V q))) (s : State V) :
    Prop where
  procs : ∀ u : Members ps, s.procs u.1 = some (t.agents u)
  others : ∀ u, (startProcs ps u).isSome = false → s.procs u = none
  contents : ∀ q, (s.queues q).content = t.objects (some q)
  tokens : s.tokens = (t.objects none).length
  bounded : s.tokens ≤ capacity
  capacity : s.abortCapacity = capacity

variable {t t' : Agents.State (Members ps) (Proc V) (fun q => List (Item V q))} {s s' : State V}

namespace Mirrors

/-- Both start alike. -/
theorem start : Mirrors capacity ⟨fun u : Members ps => (startProcs ps u.1).get u.2,
      fun _ => []⟩ (startAll ps capacity) where
  procs u := (Option.some_get u.2).symm
  others _ hu := Option.isSome_eq_false_iff.1 hu |> Option.isNone_iff_eq_none.1
  contents _ := rfl
  tokens := rfl
  bounded := Nat.zero_le capacity
  capacity := rfl

section

variable (h : Mirrors capacity t s)
include h

/-- Every processor is an agent. -/
theorem member {u : Id} {x : Proc V} (hx : s.procs u = some x) :
    ∃ hu : (startProcs ps u).isSome = true, t.agents ⟨u, hu⟩ = x := by
  have hu : (startProcs ps u).isSome = true := by
    rw [← Bool.not_eq_false]
    intro hu
    rw [h.others u hu] at hx
    cases hx
  exact ⟨hu, Option.some.inj ((h.procs ⟨u, hu⟩).symm.trans hx)⟩

/-- A processor moves on both levels. -/
theorem setProc (u : Members ps) (y : Proc V) :
    Mirrors capacity { t with agents := update t.agents u y } (s.setProc u.1 y) where
  procs v := by
    show _ = some (update t.agents u y v)
    rw [State.setProc_procs]
    by_cases hv : v = u
    · subst hv
      rw [if_pos rfl, update_self]
    · rw [if_neg (fun he => hv (Subtype.ext he)), update_of_ne hv, h.procs]
  others v hv := by
    rw [State.setProc_procs, if_neg]
    · exact h.others v hv
    · rintro rfl
      rw [u.2] at hv
      cases hv
  contents := h.contents
  tokens := h.tokens
  bounded := h.bounded
  capacity := h.capacity

/-- A queue changes on both levels. -/
theorem setQueue {q : Queue} {f : Fifo Writer (Option V)} {l : List (Item V (some q))} (hf : f.content = l) :
    Mirrors capacity { t with objects := update t.objects (some q) l } (s.setQueue q f) where
  procs := h.procs
  others := h.others
  contents r := by
    show _ = update t.objects (some q) l (some r)
    rw [State.setQueue_queues]
    by_cases hr : r = q
    · subst hr
      rw [if_pos rfl, update_self, hf]
    · rw [if_neg hr, update_of_ne (fun he => hr (Option.some.inj he)), h.contents]
  tokens := by
    show _ = (update t.objects (some q) l none).length
    rw [update_of_ne (by rintro ⟨⟩)]
    exact h.tokens
  bounded := h.bounded
  capacity := h.capacity

/-- The abort channel changes on both levels. -/
theorem setTokens {n : Nat} {l : List (Item V none)} (hn : n = l.length) (hle : n ≤ capacity) :
    Mirrors capacity { t with objects := update t.objects none l } { s with tokens := n } where
  procs := h.procs
  others := h.others
  contents q := by
    show _ = update t.objects none l (some q)
    rw [update_of_ne (by rintro ⟨⟩)]
    exact h.contents q
  tokens := by
    show _ = (update t.objects none l none).length
    rw [update_self]
    exact hn
  bounded := hle
  capacity := h.capacity

/-- A step of the agents is a turn of a processor. -/
theorem step (hd : s.dead = false) (hs : Agents.Step (Proc.agents V) (queueEffect V capacity) t t') :
    ∃ u s', s.Turns u s' ∧ Mirrors capacity t' s' := by
  have hone : ∀ {u s'}, Moves s (.run u) s' → s.Turns u s' := fun hm => .inl (State.step_iff.2 ⟨hd, hm⟩)
  cases hs with
  | @go u y hgo =>
    rcases hgo with ⟨ha, rfl⟩ | ⟨hc, _, rfl⟩
    · exact ⟨u, _, hone (.internal (h.procs u) ha), h.setProc u _⟩
    · exact ⟨u, _, .inr ⟨_, State.step_iff.2 ⟨hd, .throw (h.procs u) hc⟩⟩, h.setProc u _⟩
  | @use u q op r o hwants heffect =>
    have hx := h.procs u
    change (t.agents u).wants = _ at hwants
    generalize t.agents u = x at hx hwants
    unfold Proc.wants at hwants
    split at hwants
    · rename_i i q' ha
      cases hwants
      generalize hl : t.objects (some q') = l at heffect
      cases heffect with
      | pop v rest =>
        have hcontent := (h.contents q').trans hl
        rw [Proc.agents_resume_pop ha]
        exact ⟨u, _, hone (.pop hx ha hcontent), (h.setQueue (by simp [hcontent])).setProc u _⟩
    · rename_i o' q' v ha
      cases hwants
      generalize hl : t.objects (some q') = l at heffect
      cases heffect with
      | push _ hlt =>
        have hcontent := (h.contents q').trans hl
        rw [Proc.agents_resume_push ha]
        exact ⟨u, _, hone (.push hx ha (by rw [hcontent]; exact hlt)), (h.setQueue (by simp [hcontent])).setProc u _⟩
    · rename_i ha
      cases hwants
      have htokens := h.tokens
      have hbounded := h.bounded
      obtain ⟨hres, hlength⟩ := Proc.agents_resume_tryPop ha heffect
      rw [hres, ← htokens]
      exact ⟨u, _, hone (.tryPop hx ha), (h.setTokens (by omega) (by omega)).setProc u _⟩
    · rename_i ha
      cases hwants
      refine ⟨u, _, hone (.tryPush hx ha), ?_⟩
      have htokens := h.tokens
      have hcapacity := h.capacity
      generalize hl : t.objects none = l at heffect
      rw [hl] at htokens
      rw [Proc.agents_resume_tryPush ha]
      cases heffect with
      | tryPush _ hlt =>
        have hlt : s.tokens < s.abortCapacity := by rw [htokens, hcapacity]; exact hlt
        rw [if_pos hlt]
        exact (h.setTokens (by simp [htokens]) (by omega)).setProc u _
      | full _ heq =>
        have heq : s.tokens = s.abortCapacity := by rw [htokens, hcapacity]; exact heq
        rw [if_neg (by omega)]
        exact (h.setTokens htokens (by omega)).setProc u _
    · cases hwants
    · cases hwants

/-- A turn of a processor is a step of the agents. -/
theorem turns {u : Id} (hs : s.Turns u s') :
    ∃ t', Agents.Step (Proc.agents V) (queueEffect V capacity) t t' ∧ Mirrors capacity t' s' := by
  have htokens := h.tokens
  have hbounded := h.bounded
  have hcapacity := h.capacity
  rcases hs with hs | ⟨_, hs⟩
  · cases (State.step_iff.1 hs).2 with
    | @pop _ x i q v rest hx ha hq =>
      obtain ⟨hu, rfl⟩ := h.member hx
      have hwants : (t.agents ⟨u, hu⟩).wants = some ⟨some q, .pop⟩ := by rw [Proc.wants, ha]
      have heffect : queueEffect V capacity (some q) (t.objects (some q)) .pop (.popped v) rest := by
        rw [← h.contents, hq]
        exact .pop _ _
      refine ⟨_, .use hwants heffect, ?_⟩
      rw [Proc.agents_resume_pop ha]
      exact (h.setQueue (by simp [hq])).setProc ⟨u, hu⟩ _
    | @push _ x o q v hx ha hq =>
      obtain ⟨hu, rfl⟩ := h.member hx
      have hwants : (t.agents ⟨u, hu⟩).wants = some ⟨some q, .push v⟩ := by rw [Proc.wants, ha]
      rw [h.contents] at hq
      refine ⟨_, .use hwants (.push _ hq), ?_⟩
      rw [Proc.agents_resume_push ha]
      exact (h.setQueue (by simp [h.contents])).setProc ⟨u, hu⟩ _
    | @tryPop _ x hx ha =>
      obtain ⟨hu, rfl⟩ := h.member hx
      have hwants : (t.agents ⟨u, hu⟩).wants = some ⟨none, .tryPop⟩ := by rw [Proc.wants, ha]
      obtain ⟨r, o, heffect⟩ : ∃ r o, queueEffect V capacity none (t.objects none) .tryPop r o := by
        cases hl : t.objects none with
        | nil => exact ⟨_, _, .empty⟩
        | cons v rest => exact ⟨_, _, .tryPop v rest⟩
      obtain ⟨hres, hlength⟩ := Proc.agents_resume_tryPop ha heffect
      refine ⟨_, .use hwants heffect, ?_⟩
      rw [hres, ← htokens]
      exact (h.setTokens (by omega) (by omega)).setProc ⟨u, hu⟩ _
    | @tryPush _ x hx ha =>
      obtain ⟨hu, rfl⟩ := h.member hx
      have hwants : (t.agents ⟨u, hu⟩).wants = some ⟨none, .tryPush (some 0)⟩ := by rw [Proc.wants, ha]
      rcases Nat.lt_or_eq_of_le hbounded with hlt | heq
      · have heffect : queueEffect V capacity none (t.objects none) (.tryPush (some 0)) .pushed (t.objects none ++
            [some 0]) :=
          .tryPush _ (by rw [← htokens]; exact hlt)
        refine ⟨_, .use hwants heffect, ?_⟩
        rw [Proc.agents_resume_tryPush ha, if_pos (by omega)]
        exact (h.setTokens (by simp [htokens]) (by omega)).setProc ⟨u, hu⟩ _
      · have heffect : queueEffect V capacity none (t.objects none) (.tryPush (some 0)) .full (t.objects none) :=
          .full _ (by rw [← htokens]; exact heq)
        refine ⟨_, .use hwants heffect, ?_⟩
        rw [Proc.agents_resume_tryPush ha, if_neg (by omega)]
        exact (h.setTokens htokens hbounded).setProc ⟨u, hu⟩ _
    | @internal _ x hx ha =>
      obtain ⟨hu, rfl⟩ := h.member hx
      exact ⟨_, .go (.inl ⟨ha, rfl⟩), h.setProc ⟨u, hu⟩ _⟩
  · cases (State.step_iff.1 hs).2 with
    | @throw _ x _ hx hc =>
      obtain ⟨hu, rfl⟩ := h.member hx
      exact ⟨_, .go (.inr ⟨hc, _, rfl⟩), h.setProc ⟨u, hu⟩ _⟩

end

end Mirrors

end mirrors

/-! ## Locks -/

section locked

variable {capacity : Nat} {ps : List (Pipeline V × Finset Id)}

section refines

variable (hps : ∀ b ∈ ps, Guarded b.1 b.2)
include hps

/-- A run of the agents with atomic queues is a run of the pipelines. -/
theorem exists_mirrored {t : Agents.State (Members (ps.map Prod.fst)) (Proc V) (fun q => List (Item V q))}
    (ht : ReflTransGen (Agents.Step (Proc.agents V) (queueEffect V capacity))
      ⟨fun u => (startProcs (ps.map Prod.fst) u.1).get u.2, fun _ => []⟩ t) :
    ∃ s, ReflTransGen (fun s t => ∃ i, State.Turns i s t) (startAll (ps.map Prod.fst) capacity) s ∧ Going ps s ∧
      Mirrors capacity t s := by
  induction ht with
  | refl => exact ⟨_, .refl, going_startAll hps capacity, .start⟩
  | tail _ hstep ih =>
    obtain ⟨s, hs, hgo, hm⟩ := ih
    obtain ⟨u, s', hturn, hm'⟩ := hm.step hgo.alive hstep
    exact ⟨s', hs.tail ⟨u, hturn⟩, hgo.turns hps hturn, hm'⟩

omit hps in
/-- And the other way round. -/
theorem exists_agents {s : State V}
    (hs : ReflTransGen (fun s t => ∃ i, State.Turns i s t) (startAll (ps.map Prod.fst) capacity) s) :
    ∃ t : Agents.State (Members (ps.map Prod.fst)) (Proc V) (fun q => List (Item V q)),
      ReflTransGen (Agents.Step (Proc.agents V) (queueEffect V capacity))
        ⟨fun u => (startProcs (ps.map Prod.fst) u.1).get u.2, fun _ => []⟩ t ∧ Mirrors capacity t s := by
  induction hs with
  | refl => exact ⟨_, .refl, .start⟩
  | tail _ hstep ih =>
    obtain ⟨t, ht, hm⟩ := ih
    obtain ⟨i, hturn⟩ := hstep
    obtain ⟨t', hstep', hm'⟩ := hm.turns hturn
    exact ⟨t', ht.tail hstep', hm'⟩

omit hps in
/-- The queues are empty at first. -/
theorem empty_bounded (q : Option Queue) : ([] : List (Item V q)).length ≤ capacities capacity q := Nat.zero_le _

/-- What is reached with locks stands for what is reached without. -/
theorem exists_unlocked {l : LockedState (ps.map Prod.fst)} (hl : LockedReaches capacity l) :
    l.Inv (Proc.agents V) (locks V capacity) (fun _ => []) ∧ ∃ t s, l.Refines (Proc.agents V) t ∧ Mirrors capacity t s ∧
    Going ps s ∧
      ReflTransGen (fun s t => ∃ i, State.Turns i s t) (startAll (ps.map Prod.fst) capacity) s := by
  obtain ⟨hinv, t, ht, hr⟩ :=
    Agents.Locked.exists_refined (fun q => BoundedQueue.effective (capacities capacity q)) empty_bounded hl
  obtain ⟨s, hs, hgo, hm⟩ := exists_mirrored hps ht
  exact ⟨hinv, t, s, hr, hm, hgo, hs⟩

omit hps in
/-- What is reached without locks is reached with them. -/
theorem exists_locked {s : State V}
    (hs : ReflTransGen (fun s t => ∃ i, State.Turns i s t) (startAll (ps.map Prod.fst) capacity) s) :
    ∃ l : LockedState (ps.map Prod.fst), LockedReaches capacity l ∧ l.Quiet ∧
      Mirrors capacity ⟨l.agents, fun q => (l.monitors q).shared⟩ s := by
  have hdoes : ∀ q o op r o', queueEffect V capacity q o op r o' → Monitor.Does (locks V capacity q op) o r o' :=
    fun _ _ _ _ _ h => BoundedQueue.does_of_effect h
  obtain ⟨t, ht, hm⟩ := exists_agents hs
  obtain ⟨l, hl, hquiet, rfl⟩ := Agents.Locked.exists_locked hdoes ht
  exact ⟨l, hl.lift id (fun _ _ h => .progress h), hquiet, hm⟩

/-- The locks do not show. A state that pipelines on their locks reach has the contents of the queues and of the abort
channel that they have in a run with atomic queues, where each processor stands where it stands on the locks, or where
its call brings it that has taken effect and has not returned. And every state of a run with atomic queues is reached on
the locks, with nobody in a call. -/
theorem locked_refines :
    (∀ l : LockedState (ps.map Prod.fst), LockedReaches capacity l →
      ∃ s, ReflTransGen (fun s t => ∃ i, State.Turns i s t) (startAll (ps.map Prod.fst) capacity) s ∧ s.dead = false ∧
        (∀ q, (s.queues q).content = (l.monitors (some q)).shared) ∧ s.tokens = (l.monitors none).shared.length ∧
        ∀ u : Members (ps.map Prod.fst), ∃ x, s.procs u.1 = some x ∧ l.Shows (Proc.agents V) u x) ∧
    (∀ s, ReflTransGen (fun s t => ∃ i, State.Turns i s t) (startAll (ps.map Prod.fst) capacity) s →
      ∃ l : LockedState (ps.map Prod.fst), LockedReaches capacity l ∧ l.Quiet ∧
        (∀ q, (s.queues q).content = (l.monitors (some q)).shared) ∧ s.tokens = (l.monitors none).shared.length ∧
        ∀ u : Members (ps.map Prod.fst), s.procs u.1 = some (l.agents u)) := by
  constructor
  · intro l hl
    obtain ⟨-, t, s, hr, hm, hgo, hs⟩ := exists_unlocked hps hl
    refine ⟨s, hs, hgo.alive, fun q => ?_, ?_, fun u => ⟨_, hm.procs u, hr.agents u⟩⟩
    · rw [hm.contents, hr.objects]
    · rw [hm.tokens, hr.objects]
  · intro s hs
    obtain ⟨l, hl, hquiet, hm⟩ := exists_locked hs
    exact ⟨l, hl, hquiet, hm.contents, hm.tokens, hm.procs⟩

end refines

/-- Nobody is left asleep. Where no processor can take a step, not even in a call, all of them have finished and all
queues are empty; and each sink of a pipeline without state that finished without an exception has consumed what the
network says. -/
theorem locked_deadlock_free (hps : ∀ b ∈ ps, Shares capacity b.1 b.2) (hdisj : {b | b ∈ ps}.PairwiseDisjoint Prod.snd)
    {l : LockedState (ps.map Prod.fst)} (hl : LockedReaches capacity l) (hstuck : LockedStuck capacity l) :
    (∀ u : Members (ps.map Prod.fst), (l.agents u).ctl.isFinished = true) ∧
    (∀ b ∈ ps, ∀ q : Queue, q.madeFor b.2 = true → (l.monitors (some q)).shared = []) ∧
    ∀ b ∈ ps, b.1.Pure → (∀ u : Members (ps.map Prod.fst), u.1 ∈ b.1.nodes.keys → (l.agents u).ctl = .finished none) →
      ∀ (u : Members (ps.map Prod.fst)) (n : Processor V), b.1.nodes.get u.1 = some n → n.kind.isSink = true →
        ((l.agents u).calls : Multiset V) = b.1.inflow n 0 := by
  have hguarded := fun b hb => (hps b hb).guarded
  obtain ⟨hinv, t, s, hr, hm, hgo, hs⟩ := exists_unlocked hguarded hl
  obtain ⟨W, hW⟩ := exists_cover ps Prod.snd
  have hfinite : Finite (Members (ps.map Prod.fst)) := by
    refine (W.finite_toSet.subset (fun u hu => ?_)).to_subtype
    obtain ⟨x, hx⟩ := Option.isSome_iff_exists.1 hu
    obtain ⟨-, -, b, hb, n, hn, -⟩ := (going_startAll hguarded capacity).proc u x hx
    exact hW b hb ((hps b hb).network.sound.keys (PMap.mem_keys_of_get hn))
  have := Fintype.ofFinite (Members (ps.map Prod.fst))
  obtain ⟨hagents, hstill⟩ := Agents.Locked.still (fun q => BoundedQueue.roomy (capacities capacity q)) empty_bounded
    (fun q _ _ => BoundedQueue.body_of_enabled) hinv hstuck
    (fun q _ _ _ _ _ => BoundedQueue.room_pos_of_effect) hr
  have hover : ∀ u x, s.procs u = some x → x.ctl.isFinished = true := by
    refine fun u x hx => finished_of_still hps hdisj hs (fun v s' hturn => ?_) hx
    obtain ⟨t', hstep, -⟩ := hm.turns hturn
    exact hstill t' hstep
  have hprocs : ∀ u : Members (ps.map Prod.fst), s.procs u.1 = some (l.agents u) := fun u => by rw [hm.procs, hagents]
  obtain ⟨-, -, hexcerpts⟩ := startAll_excerpts hps hdisj hs
  refine ⟨fun u => hover u.1 _ (hprocs u), fun b hb q hq => ?_, fun b hb hpure hclean u n hn hk => ?_⟩
  · obtain ⟨a, ha, hexcerpt⟩ := hexcerpts b hb
    have hR := (hps b hb).network.running ha
    rw [← hr.objects, ← hm.contents, ← hexcerpt.contents q hq]
    exact hR.content_eq_nil (hps b hb).network (fun u x hx => hover u x (hexcerpt.of_proc hx).2)
      (Queue.isLink_of_madeFor hq)
  · obtain ⟨a, ha, hexcerpt⟩ := hexcerpts b hb
    have hcompleted : a.Completed := by
      intro v x hx
      obtain ⟨hv, hx⟩ := hexcerpt.of_proc hx
      obtain ⟨hmember, rfl⟩ := hm.member hx
      rw [hagents]
      exact hclean _ hv
    obtain ⟨x, -, hx, -, hcalls, -⟩ := (hps b hb).network.sinks_agree hpure ha ha hcompleted hcompleted hn hk
    obtain ⟨-, hx⟩ := hexcerpt.of_proc hx
    rw [hprocs u] at hx
    cases hx
    exact hcalls

end locked

/-! ## A source of one value before a sink -/

/-- It binds the abort channel. -/
def boundChain : Pipeline Nat :=
  (Pipeline.ofCalls Call.Proper { bindAbortChannel := true }
    [.addSource 1 "source" (.generate (fun k => if k = 0 then some 7 else none)),
      .setSink 2 "sink" .consume (.single 1)]).1

theorem boundChain_keys : ∀ u ∈ boundChain.nodes.keys, u = 1 ∨ u = 2 := by decide

theorem shares_boundChain : ∀ b ∈ [(boundChain, ({1, 2} : Finset Id))], Shares 10 b.1 b.2 := by
  intro b hb
  obtain rfl := List.mem_singleton.1 hb
  refine ⟨built_ofCalls Call.Proper { bindAbortChannel := true } _, rfl, rfl, rfl,
    .of_keys boundChain_keys (fun u n i q hu hn hi => ?_)
    (fun u n hu hn => ?_)⟩
  · rcases hu with rfl | rfl <;> cases hn <;> cases i <;> cases hi
    decide
  · rcases hu with rfl | rfl <;> cases hn <;> exact ⟨rfl, rfl, rfl⟩

theorem guarded_boundChain : ∀ b ∈ [(boundChain, ({1, 2} : Finset Id))], Guarded b.1 b.2 :=
    fun b hb => (shares_boundChain b hb).guarded

/-- It finishes, and the value has arrived. -/
theorem boundChain_run : ∃ s x y, ReflTransGen (fun s t => ∃ i, State.Turns i s t) (startAll [boundChain] 10) s ∧
    s.procs 1 = some x ∧ x.ctl = .finished none ∧ s.procs 2 = some y ∧ y.ctl = .finished none ∧ y.calls = [7] :=
  ⟨_, _, _, State.Turns.of_runAll [.run 1, .run 1, .run 1, .run 1, .run 1, .run 2, .run 2, .run 1, .run 1, .run 1,
    .run 2, .run 2, .run 2, .run 2, .run 2] rfl rfl, rfl, rfl, rfl, rfl, rfl⟩

theorem Proc.done_of_finished {x : Proc V} {c : Option Cause} (h : x.ctl = .finished c) :
    (Proc.agents V).wants x = none ∧ ∀ y, ¬(Proc.agents V).goes x y := by
  have ha : x.action = .halt := by rw [Proc.action, h]
  refine ⟨by show x.wants = none; rw [Proc.wants, ha], fun y hgo => ?_⟩
  rcases hgo with ⟨ha', -⟩ | ⟨hc, -⟩
  · rw [ha] at ha'
    cases ha'
  · rw [Proc.action_of_inCallback hc] at ha
    cases ha

/-- The run with atomic queues is one on the locks. -/
theorem locked_refines_chain : ∃ (l : LockedState [boundChain]) (u : Members [boundChain]), LockedReaches 10 l ∧
    l.Quiet ∧ (l.agents u).calls = [7] := by
  obtain ⟨s, x, y, hs, -, -, hy, -, hcalls⟩ := boundChain_run
  obtain ⟨l, hl, hquiet, -, -, hprocs⟩ := (locked_refines guarded_boundChain).2 s hs
  refine ⟨l, ⟨2, rfl⟩, hl, hquiet, ?_⟩
  rw [hprocs ⟨2, rfl⟩] at hy
  cases hy
  exact hcalls

/-- On the locks it comes to where nobody can take a step, with the queues empty and everything at the sink. -/
theorem locked_deadlock_free_chain : ∃ (l : LockedState [boundChain]) (u : Members [boundChain]) (n : Processor Nat),
    LockedReaches 10 l ∧ LockedStuck 10 l ∧ (∀ q : Queue, q.madeFor {1, 2} = true → (l.monitors (some q)).shared = []) ∧
    boundChain.nodes.get u.1 = some n ∧ ((l.agents u).calls : Multiset Nat) = boundChain.inflow n 0 := by
  obtain ⟨s, x, y, hs, hx, hxc, hy, hyc, -⟩ := boundChain_run
  change ReflTransGen _ (startAll ([(boundChain, ({1, 2} : Finset Id))].map Prod.fst) 10) s at hs
  obtain ⟨l, hl, hquiet, hm⟩ := exists_locked hs
  have hfinished : ∀ u : Members [boundChain], (l.agents u).ctl = .finished none := by
    intro u
    have hu := hm.procs u
    obtain ⟨-, -, b, hb, n, hn, -⟩ := ((going_startAll guarded_boundChain 10).reaches guarded_boundChain hs).proc _ _ hu
    obtain rfl := List.mem_singleton.1 hb
    rcases boundChain_keys _ (PMap.mem_keys_of_get hn) with h | h
    · rw [h, hx] at hu
      cases hu
      exact hxc
    · rw [h, hy] at hu
      cases hu
      exact hyc
  have hstuck : LockedStuck 10 l := hquiet.stuck (fun u => Proc.done_of_finished (hfinished u))
  have hdisj : {b | b ∈ [(boundChain, ({1, 2} : Finset Id))]}.PairwiseDisjoint Prod.snd := by
    intro b hb c hc hbc
    exact absurd ((List.mem_singleton.1 hb).trans (List.mem_singleton.1 hc).symm) hbc
  obtain ⟨-, hempty, hsinks⟩ := locked_deadlock_free shares_boundChain hdisj hl hstuck
  obtain ⟨n, hn, hk⟩ : ∃ n, boundChain.nodes.get 2 = some n ∧ n.kind.isSink = true := ⟨_, rfl, rfl⟩
  have hpure : boundChain.Pure := by
    intro u m hm
    rcases boundChain_keys u (PMap.mem_keys_of_get hm) with rfl | rfl <;> cases hm <;> trivial
  exact ⟨l, ⟨2, rfl⟩, n, hl, hstuck, hempty _ (.head _), hn,
    hsinks _ (.head _) hpure (fun u _ => hfinished u) ⟨2, rfl⟩ n hn hk⟩

end Tunnel
