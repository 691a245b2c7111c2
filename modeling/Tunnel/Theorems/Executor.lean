import Mathlib.Algebra.Group.Action.Defs
import Tunnel.Lemmas.ExecutorTasks

/-!
# The executor runs what it has accepted

Once `Stop` has returned every worker has returned, and with `State.Watched` no task that somebody answers for is left
(`Inv.done`). The threads never come to a standstill before that (`Inv.standstill`), and whatever the interleaving they
take only so many steps for each call and each wake-up (`Inv.rank_runAll`).
-/

namespace Tunnel

namespace Executor

open Lib Function

variable {n m : Nat} {s s' : State n m} {e : Event n m} {w : Fin n} {c : Caller n m}

/-- The task must be run: its call acquired the mutex of its queue before `Stop`, or was made from inside a running
task. -/
def Task.Owed (func : Task n m) : Prop := func.beforeStop = true ∨ ∃ w, func.caller = .worker w

namespace State

/-! ## What is left when the threads are done -/

/-- A task that is in no queue and with no worker has been invoked. -/
theorem Inv.count_invoked (hi : s.Inv) {func : Task n m} (hfunc : func ∈ s.accepted) (hqueues : ∀ j, func ∉ s.queues j)
    (hworkers : ∀ w, func ∉ (s.workers w).ctl.carried) : s.invoked.count func = 1 := by
  have htasks := hi.books.tasks func
  rw [Finset.sum_eq_zero (fun j _ => List.count_eq_zero_of_not_mem (hqueues j)),
    Finset.sum_eq_zero (fun w _ => List.count_eq_zero_of_not_mem (hworkers w))] at htasks
  have hone := Nat.le_trans (Nat.le_add_left ..) (hi.books.ids func.id)
  have hle : s.accepted.count func ≤ (s.accepted.map Task.id).count func.id := List.count_le_count_map
  have hpos := List.count_pos_iff.2 hfunc
  split at hone
  · omega
  · omega

/-- No call's task is invoked twice. -/
theorem Inv.nodup_invoked (hi : s.Inv) : (s.invoked.map Task.id).Nodup := by
  rw [List.nodup_iff_count_le_one]
  intro id
  have hsub : (s.invoked : Multiset (Task n m)) ≤ s.accepted := by
    rw [Multiset.le_iff_count]
    intro func
    have htasks := hi.books.tasks func
    rw [Multiset.coe_count, Multiset.coe_count]
    omega
  have hmap := Multiset.count_le_of_le id (Multiset.map_le_map (f := Task.id) hsub)
  rw [Multiset.map_coe, Multiset.map_coe, Multiset.coe_count, Multiset.coe_count] at hmap
  have hids := hi.books.ids id
  split at hids
  · omega
  · omega

/-- `Stop` has returned: all workers have, and nothing is owed any more. -/
theorem Inv.done (hi : s.Inv) (hs : s.stopper = .returned) {func : Task n m} (hfunc : func ∈ s.accepted)
    (howed : func.Owed) :
    s.invoked.count func = 1 := by
  have hret : ∀ w, (s.workers w).ctl = .returned := fun w => hi.calling.joined w (by rw [hs]; rfl)
  have hpassed : ∀ w j, (s.workers w).Passed w j := fun w j => ⟨(hi.flags.agrees (hret w)).1, .inl (hret w)⟩
  refine hi.count_invoked hfunc (fun j hj => ?_) (fun w hw => ?_)
  · rcases howed with hbefore | ⟨w, hcaller⟩
    · exact hi.watched j func hj j (.inr hbefore) (hpassed j j)
    · exact hi.watched j func hj w (.inl hcaller) (hpassed w j)
  · rw [hret w] at hw
    nomatch hw

/-! ## No standstill -/

/-- No thread can go on. -/
def Standstill (s : State n m) : Prop := ∀ e : Event n m, e.internal = true → s.step e = none

namespace Standstill

section

variable (hstand : s.Standstill)
include hstand

/-- At a standstill no mutex is held: whoever holds one can go on. -/
theorem call_holds (c : Caller n m) (j : Fin n) : ¬s.Holds (.call c) j := by
  intro hheld
  have hnone : s.schedule c = none := hstand (.schedule c) rfl
  unfold schedule at hnone
  simp only [Holds] at hheld
  cases hc : s.calls c with
  | idle => rw [hc] at hheld; cases hheld
  | lock id index i => rw [hc] at hheld; cases hheld
  | push id index i beforeStop =>
    rw [hc] at hnone
    dsimp only at hnone
    split at hnone
    · cases hnone
    · cases hnone
  | unlock j => rw [hc] at hnone; cases hnone
  | notify j => rw [hc] at hnone; cases hnone

theorem worker_holds (hf : s.Flags) (w j : Fin n) : ¬s.Holds (.worker w) j := by
  rintro ⟨rfl, hheld⟩
  have hnone : s.work j = none := hstand (.work j) rfl
  unfold work at hnone
  cases hw : (s.workers j).ctl with
  | predicate => rw [hw] at hnone; nomatch hnone
  | predicateTryPop i =>
    rw [hw] at hnone
    dsimp only at hnone
    split at hnone
    · nomatch hnone
    · split at hnone
      · nomatch hnone
      · nomatch hnone
  | waited func =>
    have hagrees := hf.agrees hw
    rw [hw] at hnone
    dsimp only at hnone
    split at hnone
    · nomatch hnone
    · rename_i hstop
      cases func with
      | none => exact hstop hagrees.2
      | some func => nomatch hnone
  | tryPop i => rw [hw] at hheld; nomatch hheld
  | wakeUpNext func => rw [hw] at hheld; nomatch hheld
  | run func => rw [hw] at hheld; nomatch hheld
  | lock => rw [hw] at hheld; nomatch hheld
  | wait => rw [hw] at hheld; nomatch hheld
  | returned => rw [hw] at hheld; nomatch hheld

theorem stop_holds (hi : s.Inv) (j : Fin n) : ¬s.Holds .stop j := by
  intro hheld
  have hnone : s.stopping = none := hstand .stopping rfl
  unfold stopping at hnone
  simp only [Holds] at hheld
  cases hs : s.stopper with
  | lock i =>
    rw [hs] at hnone
    dsimp only at hnone
    split at hnone
    · rename_i hlt
      split at hnone
      · cases hnone
      · rename_i hheld'
        obtain ⟨h, hh⟩ := Guarded.holder hi.locks hheld'
        rcases h with c | w | _
        · exact hstand.call_holds c _ hh
        · exact hstand.worker_holds hi.flags w _ hh
        · simp [Holds, hs, Stopper.holds] at hh
    · cases hnone
  | unlock i =>
    rw [hs] at hnone
    dsimp only at hnone
    split at hnone
    · cases hnone
    · cases hnone
  | notify i => rw [hs] at hnone; cases hnone
  | idle => rw [hs] at hheld; cases hheld
  | stopTimer => rw [hs] at hheld; cases hheld
  | join i => rw [hs] at hheld; cases hheld
  | returned => rw [hs] at hheld; cases hheld

/-- At a standstill no mutex is held: whoever holds one could go on, or `Stop` waits for one that is held by somebody
else. -/
theorem free (hi : s.Inv) (j : Fin n) : s.muts j = none := by
  by_contra hne
  obtain ⟨h, hh⟩ := Guarded.holder hi.locks hne
  rcases h with c | w | _
  · exact hstand.call_holds c j hh
  · exact hstand.worker_holds hi.flags w j hh
  · exact hstand.stop_holds hi j hh

/-- At a standstill no call is under way. -/
theorem calls (hi : s.Inv) (c : Caller n m) : s.calls c = .idle := by
  have hnone : s.schedule c = none := hstand (.schedule c) rfl
  unfold schedule at hnone
  cases hc : s.calls c with
  | idle => rfl
  | lock id index i =>
    rw [hc] at hnone
    dsimp only at hnone
    rw [if_pos (hstand.free hi _)] at hnone
    cases hnone
  | push id index i beforeStop =>
    exact absurd (show s.Holds (.call c) (slot index i) by simp only [Holds, hc, Call.held]) (hstand.call_holds c _)
  | unlock j => rw [hc] at hnone; cases hnone
  | notify j => rw [hc] at hnone; cases hnone

/-- At a standstill the workers wait or have returned. -/
theorem workers (hi : s.Inv) (w : Fin n) : (s.workers w).ctl = .wait ∨ (s.workers w).ctl = .returned := by
  have hnone : s.work w = none := hstand (.work w) rfl
  have hfinish : s.finish w = none := hstand (.finish w) rfl
  have hfree : (s.workers w).ctl.holds = false :=
    Bool.eq_false_of_not_eq_true (fun h => hstand.worker_holds hi.flags w w ⟨rfl, h⟩)
  unfold work at hnone
  cases hw : (s.workers w).ctl with
  | tryPop i =>
    rw [hw] at hnone
    dsimp only at hnone
    split at hnone
    · nomatch hnone
    · nomatch hnone
  | wakeUpNext func => rw [hw] at hnone; nomatch hnone
  | run func =>
    unfold finish at hfinish
    rw [hw] at hfinish
    dsimp only at hfinish
    rw [if_pos (hstand.calls hi _)] at hfinish
    nomatch hfinish
  | lock =>
    rw [hw] at hnone
    dsimp only at hnone
    rw [if_pos (hstand.free hi w)] at hnone
    nomatch hnone
  | wait => exact .inl rfl
  | returned => exact .inr rfl
  | predicate => rw [hw] at hfree; nomatch hfree
  | predicateTryPop i => rw [hw] at hfree; nomatch hfree
  | waited func => rw [hw] at hfree; nomatch hfree

/-- At a standstill `Stop` was not called or has returned: a worker that waits would have been notified. -/
theorem stopper (hi : s.Inv) : s.stopper = .idle ∨ s.stopper = .returned := by
  have hnone : s.stopping = none := hstand .stopping rfl
  unfold stopping at hnone
  cases hs : s.stopper with
  | idle => exact .inl rfl
  | returned => exact .inr rfl
  | stopTimer =>
    rw [hs] at hnone
    dsimp only at hnone
    rw [if_pos (hstand.calls hi _)] at hnone
    nomatch hnone
  | lock i =>
    rw [hs] at hnone
    dsimp only at hnone
    split at hnone
    · rw [if_pos (hstand.free hi _)] at hnone
      nomatch hnone
    · nomatch hnone
  | unlock i =>
    rw [hs] at hnone
    dsimp only at hnone
    split at hnone
    · nomatch hnone
    · nomatch hnone
  | notify i => rw [hs] at hnone; nomatch hnone
  | join i =>
    rw [hs] at hnone
    dsimp only at hnone
    split at hnone
    · rename_i hlt
      split at hnone
      · nomatch hnone
      · rename_i hret
        have hwait := (hstand.workers hi ⟨i, hlt⟩).resolve_right hret
        have hwill := (hi.attended ⟨i, hlt⟩).stop hwait (by rw [hi.flags.stopper, hs]; rfl)
        rw [hs] at hwill
        nomatch hwill
    · nomatch hnone

/-- At a standstill nothing is owed: if `Stop` was not called, the workers wait before empty queues. -/
theorem done (hi : s.Inv) {func : Task n m} (hfunc : func ∈ s.accepted) (howed : func.Owed) :
    s.invoked.count func = 1 := by
  rcases hstand.stopper hi with hs | hs
  · have hstop : s.stop = false := by
      rw [hi.flags.stopper, hs]
      rfl
    have hwait : ∀ w, (s.workers w).ctl = .wait := by
      intro w
      refine (hstand.workers hi w).resolve_right (fun hret => ?_)
      nomatch hstop.symm.trans (hi.flags.agrees hret).2
    refine hi.count_invoked hfunc (fun j hj => ?_) (fun w hw => ?_)
    · obtain ⟨c, hc⟩ := (hi.attended j).task (hwait j) (List.ne_nil_of_mem hj)
      unfold Alerts at hc
      rw [hstand.calls hi c] at hc
      rcases hc with hc | hc
      · nomatch hc
      · nomatch hc
    · rw [hwait w] at hw
      nomatch hw
  · exact hi.done hs hfunc howed

end

end Standstill

end State

/-! ## How many steps there are -/

/-- The steps of a worker until it waits again, those included to which it wakes up another one. -/
def WorkerCtl.rank : WorkerCtl n m → Nat
  | .tryPop i => (n - i) + n + 4
  | .wakeUpNext _ => 3 * n + 9
  | .run _ => 2 * n + 5
  | .lock => n + 3
  | .predicate => n + 2
  | .predicateTryPop i => (n - i) + 1
  | .wait => 0
  | .waited none => 1
  | .waited (some _) => 2 * n + 6
  | .returned => 0

/-- A worker begins once more to scan the queues when it has seen `stop_`. -/
def Worker.rank (x : Worker n m) : Nat := x.ctl.rank + if x.stopWhenTryPopFailed = true then 0 else 2 * n + 4

/-- The steps for a task in a queue. -/
def taskRank (n : Nat) : Nat := 3 * n + 10

/-- The steps of a call and those that its task and its notification bring about. -/
def Call.rank : Call n → Nat
  | .idle => 0
  | .lock _ _ i => 2 * (n - i) + taskRank n + n + 7
  | .push _ _ i _ => 2 * (n - i) + taskRank n + n + 6
  | .unlock _ => n + 5
  | .notify _ => n + 4

/-- The steps of `Stop` and those of the workers that it wakes up. -/
def Stopper.rank : Stopper n → Nat
  | .idle => 0
  | .stopTimer => n + n * (n + 5) + n + 4
  | .lock i => (n - i) + n * (n + 5) + n + 3
  | .unlock i => (n - i) * (n + 5) + n + 2
  | .notify i => (n - i) * (n + 5) + n + 1
  | .join i => (n - i) + 1
  | .returned => 0

namespace State

/-- A bound on the steps that are still to come. -/
def rank (s : State n m) : Nat :=
  ∑ w, (s.workers w).rank + ∑ c, (s.calls c).rank + ∑ j, taskRank n * (s.queues j).length + s.stopper.rank

section

variable {a b : Nat}

/-- A worker moves. -/
theorem rank_worker {x : Worker n m} (h : x.rank + a ≤ (s.workers w).rank + b)
    (hworkers : s'.workers = update s.workers w x) (hcalls : s'.calls = s.calls) (hqueues : s'.queues = s.queues)
    (hstopper : s'.stopper = s.stopper) : s'.rank + a ≤ s.rank + b := by
  have hsum := sum_update (Finset.mem_univ w) Worker.rank s.workers x
  unfold rank
  rw [hworkers, hcalls, hqueues, hstopper]
  omega

/-- A worker moves and remembers what it did of `stop_`. -/
theorem rank_ctl {x y : WorkerCtl n m} (hw : (s.workers w).ctl = y) (h : x.rank + a ≤ y.rank + b)
    (hworkers : s'.workers = update s.workers w { s.workers w with ctl := x }) (hcalls : s'.calls = s.calls)
    (hqueues : s'.queues = s.queues) (hstopper : s'.stopper = s.stopper) : s'.rank + a ≤ s.rank + b := by
  refine rank_worker ?_ hworkers hcalls hqueues hstopper
  unfold Worker.rank
  rw [hw]
  dsimp only
  omega

/-- A worker pops a task. -/
theorem rank_pop {x y : WorkerCtl n m} {j : Fin n} {func : Task n m} {rest : List (Task n m)}
    (hq : s.queues j = func :: rest) (hw : (s.workers w).ctl = y) (h : x.rank + a ≤ y.rank + taskRank n + b)
    (hworkers : s'.workers = update s.workers w { s.workers w with ctl := x }) (hcalls : s'.calls = s.calls)
    (hqueues : s'.queues = update s.queues j rest) (hstopper : s'.stopper = s.stopper) : s'.rank + a ≤ s.rank + b := by
  have hsum := sum_update (Finset.mem_univ w) Worker.rank s.workers { s.workers w with ctl := x }
  have hqueue := sum_update (Finset.mem_univ j) (fun l : List (Task n m) => taskRank n * l.length) s.queues rest
  have hworker : Worker.rank { s.workers w with ctl := x } + a ≤ (s.workers w).rank + taskRank n + b := by
    unfold Worker.rank
    rw [hw]
    dsimp only
    omega
  rw [hq, List.length_cons, Nat.mul_succ] at hqueue
  unfold rank
  rw [hworkers, hcalls, hqueues, hstopper]
  omega

/-- A call moves. -/
theorem rank_call {x y : Call n} (hc : s.calls c = y) (h : x.rank + a ≤ y.rank + b)
    (hcalls : s'.calls = update s.calls c x) (hworkers : s'.workers = s.workers) (hqueues : s'.queues = s.queues)
    (hstopper : s'.stopper = s.stopper) :
    s'.rank + a ≤ s.rank + b := by
  have hsum := sum_update (Finset.mem_univ c) Call.rank s.calls x
  rw [hc] at hsum
  unfold rank
  rw [hworkers, hcalls, hqueues, hstopper]
  omega

/-- A call pushes its task. -/
theorem rank_push {x y : Call n} {j : Fin n} {func : Task n m} (hc : s.calls c = y)
    (h : x.rank + taskRank n + a ≤ y.rank + b) (hcalls : s'.calls = update s.calls c x)
    (hworkers : s'.workers = s.workers) (hqueues : s'.queues = update s.queues j (s.queues j ++ [func]))
    (hstopper : s'.stopper = s.stopper) :
    s'.rank + a ≤ s.rank + b := by
  have hsum := sum_update (Finset.mem_univ c) Call.rank s.calls x
  have hqueue := sum_update (Finset.mem_univ j) (fun l : List (Task n m) =>
    taskRank n * l.length) s.queues (s.queues j ++ [func])
  rw [hc] at hsum
  rw [List.length_append, List.length_singleton, Nat.mul_succ] at hqueue
  unfold rank
  rw [hworkers, hcalls, hqueues, hstopper]
  omega

/-- `Stop` moves. -/
theorem rank_stopper {x y : Stopper n} (hs : s.stopper = y) (h : x.rank + a ≤ y.rank + b) (hstopper : s'.stopper = x)
    (hcalls : s'.calls = s.calls) (hworkers : s'.workers = s.workers) (hqueues : s'.queues = s.queues) :
    s'.rank + a ≤ s.rank + b := by
  unfold rank
  rw [hworkers, hcalls, hqueues, hstopper, hs]
  omega

end

/-- A notification costs what a worker does until it waits again. -/
theorem rank_of_notifyOne (h : s'.rank + (n + 4) ≤ (s.notifyOne w).rank + 0) : s'.rank + 1 ≤ s.rank + 0 := by
  have hnotify : (s.notifyOne w).rank ≤ s.rank + (n + 3) := by
    rcases s.notifyOne_eq w with ⟨heq, -⟩ | ⟨heq, hw⟩
    · rw [heq]
      exact Nat.le_add_right ..
    · rw [heq]
      show (s.setCtl w .lock).rank + 0 ≤ _
      exact rank_ctl hw (by simp only [WorkerCtl.rank]; omega) rfl rfl rfl rfl
  omega

/-- A thread that goes on has less to do. -/
theorem Inv.rank_internal (hi : s.Inv) (hm : Moves s e s') (he : e.internal = true) : s'.rank < s.rank := by
  show s'.rank + 1 ≤ s.rank + 0
  cases hm with
  | call hc => nomatch he
  | acquire hc => exact rank_call hc (by simp only [Call.rank]; omega) rfl rfl rfl rfl
  | push hc => exact rank_push hc (by simp only [Call.rank]; omega) rfl rfl rfl rfl
  | full hc =>
    refine rank_call hc ?_ rfl rfl rfl rfl
    split
    · simp only [Call.rank]
      omega
    · simp only [Call.rank]
      omega
  | unlock hc => exact rank_call hc (by simp only [Call.rank]; omega) rfl rfl rfl rfl
  | @notify c j hc =>
    have hc' : (s.notifyOne j).calls c = .notify j := by
      rw [calls_notifyOne, hc]
    exact rank_of_notifyOne (rank_call hc' (by simp only [Call.rank]; omega) rfl rfl rfl rfl)
  | pop hw hq => exact rank_pop hq hw (by simp only [WorkerCtl.rank, taskRank]; omega) rfl rfl rfl rfl
  | miss hw hq hi => exact rank_ctl hw (by simp only [WorkerCtl.rank]; omega) rfl rfl rfl rfl
  | leave hw => exact rank_ctl hw (by simp only [WorkerCtl.rank]; omega) rfl rfl rfl rfl
  | idle hw => exact rank_ctl hw (by simp only [WorkerCtl.rank]; omega) rfl rfl rfl rfl
  | @wakeUpNext w func hw =>
    have hw' : ((s.notifyOne (slot w 1)).workers w).ctl = .wakeUpNext func := by
      rw [workers_notifyOne (by rw [hw]; nofun), hw]
    exact rank_of_notifyOne (rank_ctl hw' (by simp only [WorkerCtl.rank]; omega) rfl rfl rfl rfl)
  | lock hw => exact rank_ctl hw (by simp only [WorkerCtl.rank]; omega) rfl rfl rfl rfl
  | predicateStop hw => exact rank_ctl hw (by simp only [WorkerCtl.rank]; omega) rfl rfl rfl rfl
  | predicate hw => exact rank_ctl hw (by simp only [WorkerCtl.rank]; omega) rfl rfl rfl rfl
  | predicatePop hw hq => exact rank_pop hq hw (by simp only [WorkerCtl.rank, taskRank]; omega) rfl rfl rfl rfl
  | predicateMiss hw hq hi => exact rank_ctl hw (by simp only [WorkerCtl.rank]; omega) rfl rfl rfl rfl
  | wait hw => exact rank_ctl hw (by simp only [WorkerCtl.rank]; omega) rfl rfl rfl rfl
  | @stopped w func hw hstop =>
    -- from now on the worker leaves when it finds nothing, so that it scans the queues once more
    have hagrees := hi.flags.agrees hw
    have hone : 2 * n + 5 ≤ (s.workers w).rank := by
      unfold Worker.rank
      rw [hw]
      cases func with
      | none =>
        rw [hagrees.1]
        simp only [WorkerCtl.rank, Bool.false_eq_true, if_false]
        omega
      | some func => nomatch hstop.symm.trans hagrees.2
    refine rank_worker (Nat.le_trans ?_ hone) rfl rfl rfl rfl
    simp only [Worker.rank, WorkerCtl.rank, Nat.sub_zero, if_true]
    omega
  | resume hw => exact rank_ctl hw (by simp only [WorkerCtl.rank]; omega) rfl rfl rfl rfl
  | finish hw => exact rank_ctl hw (by simp only [WorkerCtl.rank]; omega) rfl rfl rfl rfl
  | wake hw => nomatch he
  | stop hs => nomatch he
  | stopTimer hs => exact rank_stopper hs (by simp only [Stopper.rank]; omega) rfl rfl rfl rfl
  | stopLock hs => exact rank_stopper hs (by simp only [Stopper.rank]; omega) rfl rfl rfl rfl
  | setStop hs hi => exact rank_stopper hs (by simp only [Stopper.rank, Nat.sub_zero]; omega) rfl rfl rfl rfl
  | stopUnlock hs => exact rank_stopper hs (by simp only [Stopper.rank]; omega) rfl rfl rfl rfl
  | @stopNotify w hs =>
    have hs' : (s.notifyOne w).stopper = .notify w := by
      rw [stopper_notifyOne, hs]
    have hnext : n - w = n - (w + 1) + 1 := by omega
    refine rank_of_notifyOne (rank_stopper hs' ?_ rfl rfl rfl rfl)
    simp only [Stopper.rank]
    rw [hnext, Nat.succ_mul]
    omega
  | unlocked hs hi => exact rank_stopper hs (by simp only [Stopper.rank]; omega) rfl rfl rfl rfl
  | join hs => exact rank_stopper hs (by simp only [Stopper.rank]; omega) rfl rfl rfl rfl
  | joined hs => exact rank_stopper hs (by simp only [Stopper.rank]; omega) rfl rfl rfl rfl

end State

/-- How many steps the start, a call, a wake-up or `Stop` can bring about. -/
def stepBound (n : Nat) : Nat := 4 * (n * n) + 13 * n + 21

namespace State

/-- What comes from outside brings about a bounded number of steps. -/
theorem rank_outside (hm : Moves s e s') (he : e.internal = false) : s'.rank ≤ s.rank + stepBound n := by
  show s'.rank + 0 ≤ s.rank + stepBound n
  cases hm with
  | call hc =>
    exact rank_call (idle_of_mayCall hc) (by simp only [Call.rank, taskRank, stepBound]; omega) rfl rfl rfl rfl
  | wake hw => exact rank_ctl hw (by simp only [WorkerCtl.rank, stepBound]; omega) rfl rfl rfl rfl
  | stop hs => exact rank_stopper hs (by simp only [Stopper.rank, stepBound, Nat.mul_add]; omega) rfl rfl rfl rfl
  | _ => nomatch he

theorem rank_start (n m : Nat) : (start n m).rank ≤ stepBound n := by
  have hworker : Worker.rank ({ ctl := .tryPop 0, stopWhenTryPopFailed := false } : Worker n m) = 4 * n + 8 := by
    simp only [Worker.rank, WorkerCtl.rank, Nat.sub_zero, Bool.false_eq_true, if_false]
    omega
  simp only [rank, start, hworker, Call.rank, Stopper.rank, stepBound, List.length_nil, Finset.sum_const,
    Finset.card_univ, Fintype.card_fin, smul_eq_mul, Nat.mul_zero, Nat.mul_add]
  rw [Nat.mul_left_comm]
  omega

/-- A run has at most so many steps of the threads for each step from outside. -/
theorem Inv.rank_runAll (hi : s.Inv) {es : List (Event n m)} (h : s.runAll es = some s') :
    es.countP Event.internal + s'.rank ≤ s.rank + stepBound n * es.countP (fun e => !e.internal) := by
  induction es generalizing s with
  | nil =>
    rw [Option.some.inj h]
    simp
  | cons e rest ih =>
    obtain ⟨t, ht, hrest⟩ := Option.bind_eq_some_iff.1 h
    have hm := step_moves ht
    have hrank := ih (hi.step hm) hrest
    by_cases he : e.internal = true
    · have hlt := hi.rank_internal hm he
      rw [List.countP_cons_of_pos he, List.countP_cons_of_neg (by simp [he])]
      omega
    · have hle := rank_outside hm (Bool.eq_false_of_not_eq_true he)
      rw [List.countP_cons_of_neg he, List.countP_cons_of_pos (by simp [he]), Nat.mul_succ]
      omega

end State

/-- Every accepted task whose call came before `Stop` or from a running task is run exactly once before `Stop` returns.
After any steps of any threads:
- no task has been invoked twice;
- a task that was popped in the predicate of `wait` is run next, as `stop_` is not set;
- if `Stop` has returned, all workers have, and each such task has been invoked once;
- if no thread can go on, `Stop` was not called or has returned, and each such task has been invoked once;
- and the threads cannot go on for ever: they take only so many steps for each call, each spurious wake-up and for
  `Stop`. -/
theorem executor_exactly_once {n m : Nat} {es : List (Event n m)} {s : State n m}
    (h : (State.start n m).runAll es = some s) :
    (s.invoked.map Task.id).Nodup ∧
    (∀ w func, (s.workers w).ctl = .waited (some func) → s.stop = false ∧
      s.work w = some ((s.setMut w none).invoke w func)) ∧
    (s.stopper = .returned → (∀ w, (s.workers w).ctl = .returned) ∧ ∀ func ∈ s.accepted, func.Owed →
      s.invoked.count func = 1) ∧
    (s.Standstill → (s.stopper = .idle ∨ s.stopper = .returned) ∧ ∀ func ∈ s.accepted, func.Owed →
      s.invoked.count func = 1) ∧
    es.countP Event.internal ≤ stepBound n * (es.countP (fun e => !e.internal) + 1) := by
  have hi := (State.Inv.start n m).runAll h
  refine ⟨hi.nodup_invoked, fun w func hw => ?_, fun hs => ?_, fun hstand => ?_, ?_⟩
  · have hstop : s.stop = false := (hi.flags.agrees hw).2
    refine ⟨hstop, ?_⟩
    unfold State.work
    rw [hw]
    dsimp only
    rw [if_neg (by rw [hstop]; nofun)]
    rfl
  · exact ⟨fun w => hi.calling.joined w (by rw [hs]; rfl), fun func hfunc howed => hi.done hs hfunc howed⟩
  · exact ⟨hstand.stopper hi, fun func hfunc howed => hstand.done hi hfunc howed⟩
  · have hrank := (State.Inv.start n m).rank_runAll h
    have hstart := State.rank_start n m
    rw [Nat.mul_succ]
    omega

/-- Two workers. A task that comes from outside into the queue of worker 0 is stolen by worker 1. While it runs, `Stop`
sets `stop_`, and worker 0 finds nothing and returns; only then the task schedules another one, into the queue of worker
0. -/
def stolen : List (Event 2 1) :=
  List.flatten
    [.call (.outer 0) ⟨0, Nat.zero_lt_succ 3⟩ 0 :: List.replicate 4 (.schedule (.outer 0)),
      List.replicate 3 (.work 1),
      .stop :: List.replicate 9 .stopping,
      List.replicate 7 (.work 0),
      .call (.worker 1) ⟨0, Nat.zero_lt_succ 3⟩ 0 :: List.replicate 4 (.schedule (.worker 1)),
      [.finish 1, .work 1, .work 1, .work 1, .finish 1],
      List.replicate 7 (.work 1),
      List.replicate 3 .stopping]

theorem executor_exactly_once_stolen :
    ∃ s, (State.start 2 1).runAll stolen = some s ∧ s.stopper = .returned ∧
      s.accepted = [⟨0, .outer 0, true⟩, ⟨1, .worker 1, false⟩] ∧ ∀ func ∈ s.accepted, s.invoked.count func = 1 := by
  have hrun : ((State.start 2 1).runAll stolen).map (fun s => (s.stopper, s.accepted)) =
      some (.returned, [⟨0, .outer 0, true⟩, ⟨1, .worker 1, false⟩]) := by
    decide +kernel
  obtain ⟨s, hs, hpair⟩ := Option.map_eq_some_iff.1 hrun
  obtain ⟨hstopper, haccepted⟩ := Prod.mk.inj hpair
  refine ⟨s, hs, hstopper, haccepted, fun func hfunc => ?_⟩
  refine ((executor_exactly_once hs).2.2.1 hstopper).2 func hfunc ?_
  rw [haccepted] at hfunc
  rcases List.mem_pair.1 hfunc with rfl | rfl
  · exact .inl rfl
  · exact .inr ⟨1, rfl⟩

end Executor

end Tunnel
