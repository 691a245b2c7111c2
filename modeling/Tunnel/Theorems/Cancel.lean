import Mathlib.Data.Prod.Lex
import Tunnel.Lemmas.Shared
import Tunnel.Lib.Fair
import Tunnel.Theorems.Abort

/-!
# An exception ends every pipeline on the abort channel

From the first exception on there is a token in the abort channel, or somebody is about to put one there. While there is
one, whoever comes to the check of the abort channel leaves `work`, and between two checks a processor takes a bounded
number of steps (`Ctl.left`), as it does in `hosted_mode` once nobody writes anymore. So a run in which every processor
gets its turn comes to an end, also when its sources would never stop by themselves.
-/

namespace Tunnel

open Lib Function

variable {V : Type}

/-- How many steps the coroutine can take before it next looks at the abort channel, or at most before it ends; an
element that it leaves in a queue counts for the step of whoever pops it. -/
def Ctl.left (nin nout : Nat) : Ctl V → Nat
  | .start => 2 * nin + 5
  | .generate => 3
  | .pop i => 2 * (nin - i) + 4
  | .popCheck _ _ => 0
  | .handle i _ => 2 * (nin - i) + 5
  | .eof i => 2 * (nin - i) + 3
  | .push _ _ _ _ => 2
  | .pushCheck _ _ => 0
  | .afterWork => 2
  | .threw _ => 0
  | .closeInput _ i => nin - i + 3 * nout + 2
  | .closeOutput _ o => 3 * (nout - o) + 1
  | .finished _ => 0
  | .escaped => 0
  | .dead _ => 0

namespace Proc

variable {n : Processor V} {x y : Proc V}

def left (x : Proc V) : Nat := x.ctl.left x.obj.kind.nin x.obj.kind.nout

/-- A pop leaves no more to do. -/
theorem left_popped {i : Nat} {q : Queue} (ha : x.action = .pop i q) (v : Option V) : (x.popped i v).left ≤ x.left := by
  obtain ⟨-, hc | ⟨c, hc, -⟩⟩ := action_pop ha <;> cases v <;> simp only [left, popped, hc]
  · split
    · exact Nat.zero_le _
    · split
      · simp [goto, Ctl.left, Ports.take, Ports.countEof, Ports.resetInput]
      · exact Nat.zero_le _
  · exact Nat.zero_le _
  · split
    · exact Nat.zero_le _
    · split
      · simp only [goto, Ctl.left, Ports.take, Ports.countEof, Processor.countEof_kind]
        omega
      · simp [goto, Ports.take, Ports.countEof]
  · exact Nat.le_refl _

/-- A push leaves two less. -/
theorem left_pushed {o : Nat} {q : Queue} {v : Option V} (ha : x.action = .push o q v) :
    (x.pushed o v).left + 2 ≤ x.left := by
  obtain ⟨-, ⟨rest, next, hc⟩ | ⟨hc, -, -, rfl⟩ | ⟨c, hc, hlt, rfl⟩⟩ := action_push ha
  · cases v <;> simp [left, pushed, hc, goto, Ctl.left]
  · simp [left, pushed, hc, goto, Ctl.left]
  · simp only [left, pushed, hc, goto, Ctl.left, Ports.give]
    omega

/-- With an abort channel, a step without a queue brings the coroutine closer to its next look at that channel. -/
theorem left_internal (h : Inv n x) (hport : x.abortPort = true) (ha : x.action = .internal) :
    x.internal.left < x.left := by
  cases hc : x.ctl with
  | start =>
    simp only [left, internal, hc, work_eq]
    split
    · split <;> simp [Ctl.left]
    · exact Nat.succ_pos _
  | generate =>
    have hg : n.kind.generates = true := by
      have hstand := h.standing
      rw [hc] at hstand
      exact hstand.1
    obtain ⟨g, hk⟩ := Kind.exists_generate hg
    simp [left, internal, hc, generating, h.kind.trans hk, Ctl.emit, Ctl.left]
  | handle i a =>
    simp only [left, internal, hc]
    cases (x.obj.kind.onValue x.calls a).map (fun w => (w.1, some w.2)) with
    | nil => simp [Ctl.emit, Ctl.left]
    | cons w rest =>
      simp only [Ctl.emit, Ctl.left]
      omega
  | eof i =>
    simp only [left, internal, hc, ended]
    split
    · simp only [Ctl.left]
      omega
    · cases x.obj.kind.onEof x.calls <;> simp only [Ctl.emit, Ctl.left] <;> omega
  | popCheck i v => simp [action, hc, hport] at ha
  | pushCheck rest next => simp [action, hc, hport] at ha
  | threw c => simp [action, hc, hport] at ha
  | afterWork =>
    simp only [left, internal, hc]
    split <;> exact Nat.succ_pos _
  | closeInput c i =>
    simp only [left, internal, hc]
    split <;> simp only [Ctl.left] <;> omega
  | closeOutput c o =>
    simp only [left, internal, hc]
    split <;> simp only [Ctl.left] <;> omega
  | pop i => simp [left, internal, hc, Ctl.left]
  | push o v rest next => simp [left, internal, hc, Ctl.left]
  | finished c => simp [action, hc] at ha
  | escaped => simp [action, hc] at ha
  | dead d => simp [action, hc] at ha

/-- An exception that left `work` is told in the next step. -/
theorem Turn.told (ht : x.Turn y) (hport : x.abortPort = true) {c : Cause} (hx : x.ctl.threwBy = some c) :
    y.ctl.threwBy = none := by
  have hctl : x.ctl = .threw c := by
    cases hc : x.ctl with
    | threw c' =>
      rw [hc] at hx
      exact congrArg _ (Option.some.inj hx)
    | _ => rw [hc] at hx; cases hx
  cases ht with
  | popped ha v => rw [(popped_threwBy ha v).1] at hx; cases hx
  | pushed ha => rw [(pushed_threwBy ha).1] at hx; cases hx
  | checked ha token => simp [action, hctl, hport] at ha
  | notified ha => simp [Proc.notified, hctl, Ctl.threwBy]
  | internal ha => exact internal_threwBy x
  | throw hc => simp [inCallback, hctl] at hc

/-- A new exception is one of a processor that had none. -/
theorem Turn.threw (ht : x.Turn y) (hx : x.ctl.threwBy = none) {c : Cause} (hy : y.ctl.threwBy = some c) :
    x.ctl.hosted = false := by
  cases ht with
  | popped ha v => rw [(popped_threwBy ha v).2] at hy; cases hy
  | pushed ha => rw [(pushed_threwBy ha).2] at hy; cases hy
  | checked ha token => obtain ⟨-, ⟨i, v, hc⟩ | ⟨rest, next, hc⟩⟩ := action_tryPop ha <;> rw [hc] <;> rfl
  | notified ha =>
    obtain ⟨-, c', hc⟩ := action_tryPush ha
    rw [hc] at hx
    cases hx
  | internal ha => rw [internal_threwBy x] at hy; cases hy
  | throw hc => exact hosted_of_inCallback hc

end Proc

namespace State

variable {U : Finset Id} {Q : Finset Queue} {s s' : State V} {u : Id}

/-- The processors that no exception has left. -/
def untouched (U : Finset Id) (s : State V) :
    Nat := countIn U (fun x => x.any (fun x : Proc V => !x.ctl.hosted)) s.procs

/-- The exceptions that the abort channel does not know about yet. -/
def pending (U : Finset Id) (s : State V) :
    Nat := countIn U (fun x => x.any (fun x : Proc V => x.ctl.threwBy.isSome)) s.procs

/-- The steps that are left while whoever looks at the abort channel finds a token there. -/
def left (U : Finset Id) (Q : Finset Queue) (s : State V) : Nat :=
  ∑ u ∈ U, (s.procs u).elim 0 Proc.left + ∑ q ∈ Q, (s.queues q).content.length

/-- Exceptions come first, then those that the abort channel does not know about; the steps count once it knows about
all of them. -/
def rank (U : Finset Id) (Q : Finset Queue) (s : State V) : ℕ ×ₗ ℕ ×ₗ ℕ :=
  toLex (s.untouched U, toLex (s.pending U, if s.pending U = 0 then s.left U Q else 0))

theorem left_procs {x y : Proc V} (hu : u ∈ U) (hx : s.procs u = some x) (hprocs : s'.procs = update s.procs u (some y))
    (hQ : ∑ q ∈ Q, (s'.queues q).content.length + y.left < ∑ q ∈ Q, (s.queues q).content.length + x.left) :
    s'.left U Q < s.left U Q := by
  have hsum := sum_update hu (fun x : Option (Proc V) => x.elim 0 Proc.left) s.procs (some y)
  simp only [← hprocs, hx, Option.elim_some] at hsum
  unfold left
  omega

/-- One queue changes. -/
theorem sum_contents {q : Queue} (hq : q ∈ Q) (s : State V) (f : Fifo Writer (Option V)) :
    ∑ r ∈ Q, ((s.setQueue q f).queues r).content.length + (s.queues q).content.length =
      ∑ r ∈ Q, (s.queues r).content.length + f.content.length :=
  sum_update hq (fun f : Fifo Writer (Option V) => f.content.length) s.queues f

theorem sum_contents_le {q : Queue} (s : State V) {f : Fifo Writer (Option V)}
    (hf : f.content.length ≤ (s.queues q).content.length + 1) :
    ∑ r ∈ Q, ((s.setQueue q f).queues r).content.length ≤ ∑ r ∈ Q, (s.queues r).content.length + 1 := by
  by_cases hq : q ∈ Q
  · have := s.sum_contents hq f
    omega
  · refine Nat.le_succ_of_le (Nat.le_of_eq (Finset.sum_congr rfl (fun r hr => ?_)))
    rw [setQueue_queues, if_neg (fun he : r = q => hq (he ▸ hr))]

end State

section runs

variable {capacity : Nat} {ps : List (Pipeline V × Finset Id)} {U : Finset Id} {Q : Finset Queue} {s s' : State V}
  {u : Id}

/-- A run in which an exception has come: the processors are those of `U`, the queues they pop are those of `Q`. -/
structure Aborting (ps : List (Pipeline V × Finset Id)) (U : Finset Id) (s : State V) : Prop extends Going ps s where
  dom : ∀ u x, s.procs u = some x → u ∈ U
  capacity : 1 ≤ s.abortCapacity
  signalled : 1 ≤ s.tokens + s.pending U

/-- What one turn does to the numbers. -/
theorem State.counts_turn {x y : Proc V} (hu : u ∈ U) (hx : s.procs u = some x)
    (hprocs : s'.procs = update s.procs u (some y)) :
    s'.untouched U + (!x.ctl.hosted).toNat = s.untouched U + (!y.ctl.hosted).toNat ∧
    s'.pending U + x.ctl.threwBy.isSome.toNat = s.pending U + y.ctl.threwBy.isSome.toNat := by
  have huntouched := countIn_update hu (fun x => x.any (fun x : Proc V => !x.ctl.hosted)) s.procs (some y)
  have hpending := countIn_update hu (fun x => x.any (fun x : Proc V => x.ctl.threwBy.isSome)) s.procs (some y)
  simp only [hx, ← hprocs, Option.any_some] at huntouched hpending
  exact ⟨huntouched, hpending⟩

/-- A signal stays: a token is in the channel, or somebody is about to put one there. -/
theorem Going.signalled (h : Going ps s) (hU : ∀ u x, s.procs u = some x → u ∈ U) (hcap : 1 ≤ s.abortCapacity)
    (hs : 1 ≤ s.tokens + s.pending U) (ht : s.Turns u s') : 1 ≤ s'.tokens + s'.pending U := by
  obtain ⟨e, hm, he⟩ : ∃ e, Moves s e s' ∧ e.onAbortChannel = false := by
    rcases ht with ht | ⟨_, ht⟩
    · exact ⟨_, (State.step_iff.1 ht).2, rfl⟩
    · exact ⟨_, (State.step_iff.1 ht).2, rfl⟩
  obtain ⟨-, ⟨hprocs, htokens, -⟩ | ⟨v, x, y, raised, hx, hprocs, -, -, hd⟩⟩ := hm.deals he
  · rw [State.pending, hprocs, htokens]
    exact hs
  · obtain ⟨-, hpending⟩ := State.counts_turn (hU v x hx) hx hprocs
    generalize s'.tokens = tokens at hd ⊢
    cases hd with
    | raise hold hy =>
      rw [Ctl.threwBy_of_hosted hold, hy] at hpending
      simp only [Option.isSome_none, Option.isSome_some, Bool.toNat_false, Bool.toNat_true] at hpending
      omega
    | get hold hport htoken hy =>
      rw [hold, hy] at hpending
      simp only [Option.isSome_none, Option.isSome_some, Bool.toNat_false, Bool.toNat_true] at hpending
      omega
    | tell hold hport hy =>
      split <;> omega
    | die hold hport hy =>
      rw [(h.proc v x hx).1] at hport
      cases hport
    | pass hold hy =>
      rw [hold, hy] at hpending
      omega

theorem Aborting.turns (hps : ∀ b ∈ ps, Shares capacity b.1 b.2) (h : Aborting ps U s) (ht : s.Turns u s') :
    Aborting ps U s' := by
  obtain ⟨x, y, hx, -, hprocs, -⟩ := ht.turn
  refine ⟨h.toGoing.turns (fun b hb => (hps b hb).guarded) ht, fun v z hz => ?_, ?_,
    h.toGoing.signalled h.dom h.capacity h.signalled ht⟩
  · rw [hprocs] at hz
    by_cases hv : v = u
    · exact hv ▸ h.dom u x hx
    · rw [update_of_ne hv] at hz
      exact h.dom v z hz
  · rcases ht with ht | ⟨_, ht⟩ <;> rw [(State.step_iff.1 ht).2.abortCapacity] <;> exact h.capacity

/-- With a token in the channel and nobody about to put one there, a turn in which no exception comes takes a step off
those left. -/
theorem Aborting.left_lt (h : Aborting ps U s)
    (hQ : ∀ b ∈ ps, ∀ u n i q, b.1.nodes.get u = some n → n.inChan i = some q → q ∈ Q) (hpending : s.pending U = 0)
    (ht : s.Turns u s') {x y : Proc V} (hx : s.procs u = some x) (hy : s'.procs u = some y)
    (hhosted : y.ctl.hosted = x.ctl.hosted) (hthrew : x.ctl.threwBy = none) : s'.left U Q < s.left U Q := by
  obtain ⟨hport, -, b, hb, n, hn, hinv⟩ := h.proc u x hx
  have hu := h.dom u x hx
  have htoken : 0 < s.tokens := by
    have := h.signalled
    omega
  have hset : ∀ {t : State V} {z : Proc V}, (t.setProc u z).procs u = some y → z = y := by
    intro t z hz
    rw [State.setProc_procs, if_pos rfl] at hz
    exact Option.some.inj hz
  rcases ht with ht | ⟨_, ht⟩
  · cases (State.step_iff.1 ht).2 with
    | @pop _ x' i q v rest hx' ha hq =>
      cases hx.symm.trans hx'
      have hmem : q ∈ Q := hQ b hb u n i q hn (hinv.pop_port ha).2.2
      have hsum := s.sum_contents hmem (s.queues q).pop
      have hleft := Proc.left_popped ha v
      refine State.left_procs hu hx rfl ?_
      rw [State.setProc_queues]
      rw [Fifo.content_pop, hq, List.tail_cons, List.length_cons] at hsum
      omega
    | @push _ x' o q v hx' ha hq =>
      cases hx.symm.trans hx'
      have hsum := s.sum_contents_le (Q := Q) (q := q) (f := (s.queues q).push (.port u o) v) (by simp)
      have hleft := Proc.left_pushed ha
      refine State.left_procs hu hx rfl ?_
      rw [State.setProc_queues]
      omega
    | @tryPop _ x' hx' ha =>
      cases hx.symm.trans hx'
      have hthrown := hset hy
      rw [show decide (0 < s.tokens) = true by simp [htoken]] at hthrown
      obtain ⟨-, ⟨i, v, hc⟩ | ⟨rest, next, hc⟩⟩ := Proc.action_tryPop ha <;> rw [← hthrown, hc] at hhosted <;>
        cases hhosted
    | @tryPush _ x' hx' ha =>
      cases hx.symm.trans hx'
      obtain ⟨-, c, hc⟩ := Proc.action_tryPush ha
      rw [hc] at hthrew
      cases hthrew
    | @internal _ x' hx' ha =>
      cases hx.symm.trans hx'
      have hleft := Proc.left_internal hinv hport ha
      refine State.left_procs hu hx rfl ?_
      rw [State.setProc_queues]
      omega
  · cases (State.step_iff.1 ht).2 with
    | @throw _ x' _ hx' hc =>
      cases hx.symm.trans hx'
      rw [← hset hy, Proc.hosted_of_inCallback hc] at hhosted
      cases hhosted

/-- No turn lets the rank grow. One that leaves it as it is is a turn of somebody without an exception to tell, while
there is one. -/
theorem Aborting.rank_le (h : Aborting ps U s)
    (hQ : ∀ b ∈ ps, ∀ u n i q, b.1.nodes.get u = some n → n.inChan i = some q → q ∈ Q) (ht : s.Turns u s') :
    s'.rank U Q < s.rank U Q ∨
      (s'.rank U Q = s.rank U Q ∧ 0 < s.pending U ∧ ∀ x, s.procs u = some x → x.ctl.threwBy = none) := by
  obtain ⟨x, y, hx, hturn, hprocs, -⟩ := ht.turn
  have hy : s'.procs u = some y := by rw [hprocs, update_self]
  obtain ⟨huntouched, hpending⟩ := State.counts_turn (h.dom u x hx) hx hprocs
  unfold State.rank
  simp only [Prod.Lex.toLex_lt_toLex]
  by_cases hhosted : y.ctl.hosted = x.ctl.hosted
  · rw [hhosted] at huntouched
    have heq : s'.untouched U = s.untouched U := by omega
    rw [heq]
    cases hthrew : x.ctl.threwBy with
    | some c =>
      rw [hturn.told (h.proc u x hx).1 hthrew, hthrew] at hpending
      simp only [Option.isSome_none, Option.isSome_some, Bool.toNat_false, Bool.toNat_true] at hpending
      exact .inl (.inr ⟨rfl, .inl (by omega)⟩)
    | none =>
      have hy' : y.ctl.threwBy = none := by
        cases hyc : y.ctl.threwBy with
        | none => rfl
        | some c =>
          rw [hturn.threw hthrew hyc, Ctl.hosted_of_threwBy hyc] at hhosted
          cases hhosted
      rw [hthrew, hy'] at hpending
      have hpend : s'.pending U = s.pending U := by omega
      rw [hpend]
      by_cases hzero : s.pending U = 0
      · rw [if_pos hzero, if_pos hzero]
        exact .inl (.inr ⟨rfl, .inr ⟨rfl, h.left_lt hQ hzero ht hx hy hhosted hthrew⟩⟩)
      · rw [if_neg hzero, if_neg hzero]
        refine .inr ⟨rfl, Nat.pos_of_ne_zero hzero, fun z hz => ?_⟩
        cases hx.symm.trans hz
        exact hthrew
  · -- only from outside `hosted_mode` into it
    have hxh : x.ctl.hosted = false := by
      rw [← Bool.not_eq_true]
      exact fun hxh => hhosted ((hturn.hosted hxh).trans hxh.symm)
    have hyh : y.ctl.hosted = true := by
      rw [← Bool.not_eq_false]
      exact fun hyh => hhosted (hyh.trans hxh.symm)
    rw [hxh, hyh] at huntouched
    simp only [Bool.not_false, Bool.not_true, Bool.toNat_false, Bool.toNat_true] at huntouched
    exact .inl (.inl (by omega))

/-- Who takes the next step towards the end: somebody with an exception to tell, or anybody when there is none. -/
def State.Helps (U : Finset Id) (j : Id) (s : State V) : Prop :=
  (0 < s.pending U ∧ ∃ x, s.procs j = some x ∧ x.ctl.threwBy.isSome = true) ∨ (s.pending U = 0 ∧ ∃ t, s.Turns j t)

/-- A fair run in which an exception has come is over at some time: nobody can take a step anymore. -/
theorem Aborting.quiesces (hps : ∀ b ∈ ps, Shares capacity b.1 b.2)
    (hQ : ∀ b ∈ ps, ∀ u n i q, b.1.nodes.get u = some n → n.inChan i = some q → q ∈ Q) {run : Nat → State V}
    {who : Nat → Option Id} (hrun : FairRun State.Turns run who) {n : Nat} (hn : Aborting ps U (run n)) :
    ∃ m, n ≤ m ∧ ∀ i t, ¬(run m).Turns i t := by
  refine hrun.quiesces (State.rank U Q) (Aborting ps U) (State.Helps U) (fun i s t h ht => h.turns hps ht)
    (fun i s t h ht => (h.rank_le hQ ht).imp_right And.left) (fun i s t h ht hsame j hj => ?_) (fun j s h hj =>
      ?_) (fun i s t h ht => ?_) hn
  · obtain ⟨hpos, hquiet⟩ : 0 < s.pending U ∧ ∀ x, s.procs i = some x → x.ctl.threwBy = none := by
      rcases h.rank_le hQ ht with hlt | ⟨-, hpos, hquiet⟩
      · rw [hsame] at hlt
        exact absurd hlt (lt_irrefl _)
      · exact ⟨hpos, hquiet⟩
    rcases hj with ⟨-, x, hx, hthrew⟩ | ⟨hzero, -⟩
    · have hne : j ≠ i := by
        rintro rfl
        rw [hquiet x hx] at hthrew
        cases hthrew
      obtain ⟨-, y, -, -, hprocs, -⟩ := ht.turn
      have hx' : t.procs j = some x := by rw [hprocs, update_of_ne hne, hx]
      refine ⟨hne, .inl ⟨?_, x, hx', hthrew⟩⟩
      exact countIn_pos.2 ⟨j, h.dom j x hx, by rw [hx', Option.any_some, hthrew]⟩
    · omega
  · rcases hj with ⟨-, x, hx, hthrew⟩ | ⟨-, hcan⟩
    · have ha : x.action = .tryPush := by
        cases hc : x.ctl with
        | threw c => simp [Proc.action, hc, (h.proc j x hx).1]
        | _ => rw [hc] at hthrew; cases hthrew
      exact ⟨_, .inl (State.step_iff.2 ⟨h.alive, .tryPush hx ha⟩)⟩
    · exact hcan
  · by_cases hzero : s.pending U = 0
    · exact ⟨i, .inr ⟨hzero, t, ht⟩⟩
    · obtain ⟨j, hj, hthrew⟩ := countIn_pos.1 (Nat.pos_of_ne_zero hzero)
      cases hx : s.procs j with
      | none => rw [hx] at hthrew; cases hthrew
      | some x =>
        rw [hx, Option.any_some] at hthrew
        exact ⟨j, .inl ⟨Nat.pos_of_ne_zero hzero, x, hx, hthrew⟩⟩

end runs

/-- The queues that a processor reads. -/
def Processor.inQueues (n : Processor V) : Finset Queue := n.inputPort.toFinset ∪ n.inputs.reduceOption.toFinset

theorem Processor.mem_inQueues {n : Processor V} {i : Nat} {q : Queue} (h : n.inChan i = some q) : q ∈ n.inQueues := by
  unfold Processor.inChan at h
  rw [Processor.inQueues, Finset.mem_union, Option.mem_toFinset, List.mem_toFinset, List.reduceOption_mem_iff]
  split at h
  · exact .inr (List.mem_of_getElem? (Option.join_eq_some_iff.1 h))
  · split at h
    · exact .inl h
    · cases h

/-- The pipelines that share an abort channel end together: in a run in which nobody is kept from its turn forever, once
an exception has left a processor of one of them, all processors of all of them finish, also when the sources would
never stop by themselves. -/
theorem abort_ends {capacity : Nat} {ps : List (Pipeline V × Finset Id)} (hps : ∀ b ∈ ps, Shares capacity b.1 b.2)
    (hdisj : {b | b ∈ ps}.PairwiseDisjoint Prod.snd) (hcap : 1 ≤ capacity) {run : Nat → State V} {who : Nat → Option Id}
    (hrun : FairRun State.Turns run who) (h0 : run 0 = startAll (ps.map Prod.fst) capacity) {n : Nat} {u : Id}
    {x : Proc V} {c : Cause} (hx : (run n).procs u = some x) (hc : x.ctl = .threw c) :
    ∃ m, n ≤ m ∧ ∀ v y, (run m).procs v = some y → y.ctl.isFinished = true := by
  obtain ⟨hgo, habort, -⟩ := startAll_excerpts hps hdisj (h0 ▸ hrun.reaches n)
  obtain ⟨U, hU⟩ := exists_cover ps Prod.snd
  obtain ⟨Q, hQ⟩ := exists_cover ps (fun b =>
    b.1.nodes.keys.biUnion (fun u => (b.1.nodes.get u).elim ∅ Processor.inQueues))
  have hdom : ∀ u x, (run n).procs u = some x → u ∈ U := by
    intro u x hx
    obtain ⟨-, -, b, hb, m, hm, -⟩ := hgo.proc u x hx
    exact hU b hb ((hps b hb).network.sound.keys (PMap.mem_keys_of_get hm))
  have hpending : 0 < (run n).pending U := countIn_pos.2 ⟨u, hdom u x hx, by rw [hx, Option.any_some, hc]; rfl⟩
  have haborting : Aborting ps U (run n) := ⟨hgo, hdom, by omega, by omega⟩
  obtain ⟨m, hnm, hstill⟩ := haborting.quiesces hps (Q := Q)
    (fun b hb u k i q hk hq =>
      hQ b hb (Finset.mem_biUnion.2 ⟨u, PMap.mem_keys_of_get hk, by rw [hk]; exact Processor.mem_inQueues hq⟩)) hrun
  exact ⟨m, hnm, fun v y hy => finished_of_still hps hdisj (h0 ▸ hrun.reaches m) hstill hy⟩

theorem shares_throwing : Shares 10 throwingPipeline {1, 2} where
  built := built_ofCalls Call.Proper { bindAbortChannel := true } _
  checked := rfl
  bound := rfl
  capacity := rfl
  unblocked := by
    refine .of_keys (a := 1) (b := 2) (by decide) (fun u n i q hu hn hi => ?_) (fun u n hu hn => ?_)
    · rcases hu with rfl | rfl <;> cases hn <;> cases i <;> cases hi
      decide
    · rcases hu with rfl | rfl <;> cases hn <;> exact ⟨rfl, rfl, rfl⟩

theorem shares_endless : Shares 10 endlessPipeline {3, 4} where
  built := built_ofCalls Call.Proper { bindAbortChannel := true } _
  checked := rfl
  bound := rfl
  capacity := rfl
  unblocked := by
    refine .of_keys (a := 3) (b := 4) (by decide) (fun u n i q hu hn hi => ?_) (fun u n hu hn => ?_)
    · rcases hu with rfl | rfl <;> cases hn <;> cases i <;> cases hi
      decide
    · rcases hu with rfl | rfl <;> cases hn <;> exact ⟨rfl, rfl, rfl⟩

/-- The first source throws while the second one, which would never stop, has written a value: both pipelines end. -/
theorem abort_ends_endless :
    ∃ run who n, FairRun State.Turns run who ∧ run 0 = startAll [throwingPipeline, endlessPipeline] 10 ∧
    (∃ x, (run n).procs 1 = some x ∧ x.ctl = .threw (.callback true)) ∧ ∃ m, n ≤ m ∧ ∀ v y, (run m).procs v = some y →
    y.ctl.isFinished = true := by
  have hps : ∀ b ∈ [(throwingPipeline, ({1, 2} : Finset Id)), (endlessPipeline, {3, 4})], Shares 10 b.1 b.2 := by
    simp [shares_throwing, shares_endless]
  have hdisj : {b | b ∈ [(throwingPipeline, ({1, 2} : Finset Id)), (endlessPipeline, {3, 4})]}.PairwiseDisjoint
      Prod.snd := by
    have h12 : Disjoint ({1, 2} : Finset Id) {3, 4} := by decide
    intro b hb c hc hbc
    simp only [Set.mem_ofPred_eq, List.mem_cons, List.not_mem_nil, or_false] at hb hc
    rcases hb with rfl | rfl <;> rcases hc with rfl | rfl
    · exact absurd rfl hbc
    · exact h12
    · exact h12.symm
    · exact absurd rfl hbc
  obtain ⟨t, e, ht, he, hthrew, hfin⟩ : ∃ t e, (startAll [throwingPipeline, endlessPipeline] 10).runAll
        [.run 3, .run 3, .run 3, .run 1, .throw 1 true] = some t ∧
      t.runAll [.run 1, .run 1, .run 1, .run 1, .run 2, .run 2, .run 2, .run 2, .run 3, .run 3, .run 3, .run 4, .run 4,
        .run 3, .run 3, .run 4, .run 4, .run 4, .run 4, .run 4] = some e ∧
        (∃ x, t.procs 1 = some x ∧ x.ctl = .threw (.callback true)) ∧
      ∀ u ∈ ({1, 2, 3, 4} : Finset Id), ∃ x, e.procs u = some x ∧ x.ctl.isFinished = true := by
    refine ⟨_, _, rfl, rfl, ⟨_, rfl, rfl⟩, fun u hu => ?_⟩
    simp only [Finset.mem_insert, Finset.mem_singleton] at hu
    rcases hu with rfl | rfl | rfl | rfl <;> exact ⟨_, rfl, rfl⟩
  have hrun := State.Turns.of_runAll _ rfl ht
  have hend := State.Turns.of_runAll _ rfl he
  have hover : ∀ u x, e.procs u = some x → x.ctl.isFinished = true := by
    intro u x hx
    have hguarded := fun b hb => (hps b hb).guarded
    obtain ⟨-, -, b, hb, n, hn, -⟩ := ((going_startAll hguarded 10).reaches hguarded (hrun.trans hend)).proc u x hx
    have hsub : b.2 ⊆ ({1, 2, 3, 4} : Finset Id) := by
      simp only [List.mem_cons, List.not_mem_nil, or_false] at hb
      rcases hb with rfl | rfl <;> decide
    obtain ⟨y, hy, hdone⟩ := hfin u (hsub ((hps b hb).network.sound.keys (PMap.mem_keys_of_get hn)))
    cases hx.symm.trans hy
    exact hdone
  obtain ⟨run, who, n, hfair, h0, hn⟩ := FairRun.exists_of_reaches hrun hend (State.not_turns hover)
  obtain ⟨x, hx, hc⟩ := hthrew
  exact ⟨run, who, n, hfair, h0, ⟨x, hn ▸ hx, hc⟩, abort_ends hps hdisj (by decide) hfair h0 (hn ▸ hx) hc⟩

end Tunnel
