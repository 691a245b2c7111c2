import Tunnel.Executor
import Tunnel.Lib.Locks

/-!
# The steps of the executor, its mutexes and `stop_`

`Moves` lists what a step can do. From it come the facts that every later one rests on: a mutex is held by the thread
that stands between its `lock` and its `unlock` (`State.Locks`), and what a worker knows of `stop_` is right, since
`stop_` changes only while `Stop` holds every mutex (`State.Flags`).
-/

namespace Tunnel

namespace Executor

open Lib Function

variable {n m : Nat}

/-- What a step does. -/
inductive Moves : State n m → Event n m → State n m → Prop where
  | call {s : State n m} {c : Caller n m} {current : Option (Fin n)} (hc : s.mayCall c =
      some current) (rn : Fin 4) (random : Fin n) :
    Moves s (.call c rn random)
      { s.setCall c (.lock s.issued (workerIndex current rn random) 0) with issued := s.issued + 1 }
  | acquire {s : State n m} {c : Caller n m} {id : Nat} {index : Fin n} {i : Nat} (hc : s.calls c = .lock id index i)
    (hfree : s.muts (slot index i) = none) :
    Moves s (.schedule c)
      ((s.setMut (slot index i) (some (.call c))).setCall c (.push id index i (!s.stopper.acquired (slot index i))))
  | push {s : State n m} {c : Caller n m} {id : Nat} {index : Fin n} {i : Nat} {beforeStop : Bool}
    (hc : s.calls c = .push id index i beforeStop) :
    Moves s (.schedule c)
      { (s.setQueue (slot index i) (s.queues (slot index i) ++ [⟨id, c, beforeStop⟩])).setCall c
          (.unlock (slot index i)) with
        accepted := s.accepted ++ [⟨id, c, beforeStop⟩] }
  | full {s : State n m} {c : Caller n m} {id : Nat} {index : Fin n} {i : Nat} {beforeStop : Bool}
    (hc : s.calls c = .push id index i beforeStop) :
    Moves s (.schedule c) ((s.setMut (slot index i) none).setCall c (if i + 1 < n then .lock id index (i + 1)
      else .idle))
  | unlock {s : State n m} {c : Caller n m} {j : Fin n} (hc : s.calls c = .unlock j) :
    Moves s (.schedule c) ((s.setMut j none).setCall c (.notify j))
  | notify {s : State n m} {c : Caller n m} {j : Fin n} (hc : s.calls c = .notify j) :
    Moves s (.schedule c) ((s.notifyOne j).setCall c .idle)
  | pop {s : State n m} {w : Fin n} {i : Nat} {func : Task n m} {rest : List (Task n m)} (hw : (s.workers w).ctl =
      .tryPop i)
    (hq : s.queues (slot w i) = func :: rest) :
    Moves s (.work w) ((s.setQueue (slot w i) rest).setCtl w (.wakeUpNext func))
  | miss {s : State n m} {w : Fin n} {i : Nat} (hw : (s.workers w).ctl = .tryPop i) (hq : s.queues (slot w i) =
      []) (hi : i + 1 < n) :
    Moves s (.work w) (s.setCtl w (.tryPop (i + 1)))
  | leave {s : State n m} {w : Fin n} {i : Nat} (hw : (s.workers w).ctl = .tryPop i) (hq : s.queues (slot w i) =
      []) (hi : n ≤ i + 1)
    (hlast : (s.workers w).stopWhenTryPopFailed = true) : Moves s (.work w) (s.setCtl w .returned)
  | idle {s : State n m} {w : Fin n} {i : Nat} (hw : (s.workers w).ctl =
      .tryPop i) (hlast : (s.workers w).stopWhenTryPopFailed = false) :
    Moves s (.work w) (s.setCtl w .lock)
  | wakeUpNext {s : State n m} {w : Fin n} {func : Task n m} (hw : (s.workers w).ctl = .wakeUpNext func) :
    Moves s (.work w) ((s.notifyOne (slot w 1)).invoke w func)
  | lock {s : State n m} {w : Fin n} (hw : (s.workers w).ctl = .lock) (hfree : s.muts w = none) :
    Moves s (.work w) ((s.setMut w (some (.worker w))).setCtl w .predicate)
  | predicateStop {s : State n m} {w : Fin n} (hw : (s.workers w).ctl = .predicate) (hstop : s.stop = true) :
    Moves s (.work w) (s.setCtl w (.waited none))
  | predicate {s : State n m} {w : Fin n} (hw : (s.workers w).ctl = .predicate) (hstop : s.stop = false) :
    Moves s (.work w) (s.setCtl w (.predicateTryPop 0))
  | predicatePop {s : State n m} {w : Fin n} {i : Nat} {func : Task n m} {rest : List (Task n m)}
    (hw : (s.workers w).ctl = .predicateTryPop i) (hq : s.queues (slot w i) = func :: rest) :
    Moves s (.work w) ((s.setQueue (slot w i) rest).setCtl w (.waited (some func)))
  | predicateMiss {s : State n m} {w : Fin n} {i : Nat} (hw : (s.workers w).ctl =
      .predicateTryPop i) (hq : s.queues (slot w i) = [])
    (hi : i + 1 < n) : Moves s (.work w) (s.setCtl w (.predicateTryPop (i + 1)))
  | wait {s : State n m} {w : Fin n} {i : Nat} (hw : (s.workers w).ctl = .predicateTryPop i) (hq : s.queues (slot w i) =
      []) :
    Moves s (.work w) ((s.setMut w none).setCtl w .wait)
  | stopped {s : State n m} {w : Fin n} {func : Option (Task n m)} (hw : (s.workers w).ctl =
      .waited func) (hstop : s.stop = true) :
    Moves s (.work w)
      { s.setMut w none with workers := update s.workers w { ctl := .tryPop 0, stopWhenTryPopFailed := true } }
  | resume {s : State n m} {w : Fin n} {func : Task n m} (hw : (s.workers w).ctl =
      .waited (some func)) (hstop : s.stop = false) :
    Moves s (.work w) ((s.setMut w none).invoke w func)
  | finish {s : State n m} {w : Fin n} {func : Task n m} (hw : (s.workers w).ctl =
      .run func) (hc : s.calls (.worker w) = .idle) :
    Moves s (.finish w) (s.setCtl w (.tryPop 0))
  | wake {s : State n m} {w : Fin n} (hw : (s.workers w).ctl = .wait) : Moves s (.wake w) (s.setCtl w .lock)
  | stop {s : State n m} (hs : s.stopper = .idle) : Moves s .stop { s with stopper := .stopTimer }
  | stopTimer {s : State n m} (hs : s.stopper = .stopTimer) : Moves s .stopping { s with stopper := .lock 0 }
  | stopLock {s : State n m} {w : Fin n} (hs : s.stopper = .lock w) (hfree : s.muts w = none) :
    Moves s .stopping { s.setMut w (some .stop) with stopper := .lock (w + 1) }
  | setStop {s : State n m} {i : Nat} (hs : s.stopper = .lock i) (hi : n ≤ i) :
    Moves s .stopping { s with stop := true, stopper := .unlock 0 }
  | stopUnlock {s : State n m} {w : Fin n} (hs : s.stopper = .unlock w) :
    Moves s .stopping { s.setMut w none with stopper := .notify w }
  | stopNotify {s : State n m} {w : Fin n} (hs : s.stopper = .notify w) :
    Moves s .stopping { s.notifyOne w with stopper := .unlock (w + 1) }
  | unlocked {s : State n m} {i : Nat} (hs : s.stopper = .unlock i) (hi : n ≤ i) :
      Moves s .stopping { s with stopper := .join 0 }
  | join {s : State n m} {w : Fin n} (hs : s.stopper = .join w) (hw : (s.workers w).ctl = .returned) :
    Moves s .stopping { s with stopper := .join (w + 1) }
  | joined {s : State n m} {i : Nat} (hs : s.stopper = .join i) (hi : n ≤ i) :
      Moves s .stopping { s with stopper := .returned }

namespace State

variable {s s' : State n m} {e : Event n m} {w : Fin n} {c : Caller n m}

/-- The steps of `schedule`. -/
theorem schedule_moves (h : s.schedule c = some s') : Moves s (.schedule c) s' := by
  unfold schedule at h
  split at h
  · nomatch h
  · rename_i hc
    split at h
    · rename_i hfree
      exact Option.some.inj h ▸ .acquire hc hfree
    · nomatch h
  · rename_i hc
    split at h
    · exact Option.some.inj h ▸ .push hc
    · exact Option.some.inj h ▸ .full hc
  · rename_i hc
    exact Option.some.inj h ▸ .unlock hc
  · rename_i hc
    exact Option.some.inj h ▸ .notify hc

/-- The steps of a worker. -/
theorem work_moves (h : s.work w = some s') : Moves s (.work w) s' := by
  unfold work at h
  split at h
  · rename_i i hw
    split at h
    · rename_i hq
      exact Option.some.inj h ▸ .pop hw hq
    · rename_i hq
      have hs := Option.some.inj h
      subst hs
      by_cases hi : i + 1 < n
      · rw [if_pos hi]
        exact .miss hw hq hi
      · rw [if_neg hi]
        by_cases hlast : (s.workers w).stopWhenTryPopFailed = true
        · rw [if_pos hlast]
          exact .leave hw hq (Nat.le_of_not_lt hi) hlast
        · rw [if_neg hlast]
          exact .idle hw (Bool.eq_false_of_not_eq_true hlast)
  · rename_i hw
    exact Option.some.inj h ▸ .wakeUpNext hw
  · nomatch h
  · rename_i hw
    split at h
    · rename_i hfree
      exact Option.some.inj h ▸ .lock hw hfree
    · nomatch h
  · rename_i hw
    have hs := Option.some.inj h
    subst hs
    by_cases hstop : s.stop = true
    · rw [if_pos hstop]
      exact .predicateStop hw hstop
    · rw [if_neg hstop]
      exact .predicate hw (Bool.eq_false_of_not_eq_true hstop)
  · rename_i hw
    split at h
    · rename_i hq
      exact Option.some.inj h ▸ .predicatePop hw hq
    · rename_i hq
      split at h
      · rename_i hi
        exact Option.some.inj h ▸ .predicateMiss hw hq hi
      · exact Option.some.inj h ▸ .wait hw hq
  · nomatch h
  · rename_i func hw
    split at h
    · rename_i hstop
      exact Option.some.inj h ▸ .stopped hw hstop
    · rename_i hstop
      obtain ⟨f, rfl, rfl⟩ := Option.map_eq_some_iff.1 h
      exact .resume hw (Bool.eq_false_of_not_eq_true hstop)
  · nomatch h

/-- The steps after a task. -/
theorem finish_moves (h : s.finish w = some s') : Moves s (.finish w) s' := by
  unfold finish at h
  split at h
  · rename_i hw
    split at h
    · rename_i hc
      exact Option.some.inj h ▸ .finish hw hc
    · nomatch h
  · nomatch h

/-- The steps of `Stop`. -/
theorem stopping_moves (h : s.stopping = some s') : Moves s .stopping s' := by
  unfold stopping at h
  split at h
  · nomatch h
  · rename_i hs
    split at h
    · exact Option.some.inj h ▸ .stopTimer hs
    · nomatch h
  · rename_i i hs
    split at h
    · rename_i hi
      split at h
      · rename_i hfree
        exact Option.some.inj h ▸ Moves.stopLock (w := ⟨i, hi⟩) hs hfree
      · nomatch h
    · rename_i hi
      exact Option.some.inj h ▸ .setStop hs (Nat.le_of_not_lt hi)
  · rename_i i hs
    split at h
    · rename_i hi
      exact Option.some.inj h ▸ Moves.stopUnlock (w := ⟨i, hi⟩) hs
    · rename_i hi
      exact Option.some.inj h ▸ .unlocked hs (Nat.le_of_not_lt hi)
  · rename_i hs
    exact Option.some.inj h ▸ .stopNotify hs
  · rename_i i hs
    split at h
    · rename_i hi
      split at h
      · rename_i hw
        exact Option.some.inj h ▸ Moves.join (w := ⟨i, hi⟩) hs hw
      · nomatch h
    · rename_i hi
      exact Option.some.inj h ▸ .joined hs (Nat.le_of_not_lt hi)
  · nomatch h

/-- Every step is one of the moves. -/
theorem step_moves (h : s.step e = some s') : Moves s e s' := by
  rcases e with ⟨c, rn, random⟩ | c | w | w | w | _ | _
  · obtain ⟨current, hc, rfl⟩ := Option.map_eq_some_iff.1 h
    exact .call hc rn random
  · exact schedule_moves h
  · exact work_moves h
  · exact finish_moves h
  · simp only [step] at h
    split at h
    · rename_i hw
      exact Option.some.inj h ▸ .wake hw
    · nomatch h
  · simp only [step] at h
    split at h
    · rename_i hs
      exact Option.some.inj h ▸ .stop hs
    · nomatch h
  · exact stopping_moves h

/-! ## What the updates change -/

theorem workers_setCtl (s : State n m) (w : Fin n) (x : WorkerCtl n m) :
    (s.setCtl w x).workers w = { s.workers w with ctl := x } :=
  update_self ..

theorem workers_setCtl_of_ne (s : State n m) (x : WorkerCtl n m) {v : Fin n} (hv : v ≠ w) :
    (s.setCtl w x).workers v = s.workers v :=
  update_of_ne hv ..

theorem calls_setCall (s : State n m) (c : Caller n m) (x : Call n) : (s.setCall c x).calls c = x := update_self ..

theorem calls_setCall_of_ne (s : State n m) (x : Call n) {d : Caller n m} (hd : d ≠ c) :
    (s.setCall c x).calls d = s.calls d :=
  update_of_ne hd ..

/-- A worker is woken only if it waits. -/
theorem notifyOne_eq (s : State n m) (w : Fin n) :
    s.notifyOne w = s ∧ (s.workers w).ctl ≠ .wait ∨ s.notifyOne w = s.setCtl w .lock ∧ (s.workers w).ctl = .wait := by
  unfold notifyOne
  split
  · rename_i hw
    exact .inr ⟨rfl, hw⟩
  · rename_i hw
    exact .inl ⟨rfl, hw⟩

theorem calls_notifyOne (s : State n m) (w : Fin n) : (s.notifyOne w).calls = s.calls := by
  unfold notifyOne
  split <;> rfl

theorem stopper_notifyOne (s : State n m) (w : Fin n) : (s.notifyOne w).stopper = s.stopper := by
  unfold notifyOne
  split <;> rfl

theorem stop_notifyOne (s : State n m) (w : Fin n) : (s.notifyOne w).stop = s.stop := by
  unfold notifyOne
  split <;> rfl

/-- A notification changes a worker only if it waits. -/
theorem workers_notifyOne {v : Fin n} (hv : (s.workers v).ctl ≠ .wait) : (s.notifyOne w).workers v = s.workers v := by
  rcases s.notifyOne_eq w with ⟨heq, -⟩ | ⟨heq, hw⟩
  · rw [heq]
  · rw [heq]
    refine workers_setCtl_of_ne s _ (fun hvw => ?_)
    rw [hvw] at hv
    exact hv hw

/-- After `notify_one` the worker does not wait. -/
theorem ctl_notifyOne_ne_wait (s : State n m) (w : Fin n) : ((s.notifyOne w).workers w).ctl ≠ .wait := by
  rcases s.notifyOne_eq w with ⟨heq, hw⟩ | ⟨heq, -⟩
  · rw [heq]
    exact hw
  · rw [heq, workers_setCtl]
    nofun

/-- Who may call is idle. -/
theorem idle_of_mayCall {current : Option (Fin n)} (h : s.mayCall c = some current) : s.calls c = .idle := by
  unfold mayCall at h
  split at h
  · nomatch h
  · rename_i hc
    exact Decidable.not_not.1 hc

end State

/-! ## The mutexes -/

/-- The loop of the worker has acquired its mutex. -/
def WorkerCtl.holds : WorkerCtl n m → Bool
  | .predicate => true
  | .predicateTryPop _ => true
  | .waited _ => true
  | _ => false

/-- The mutex that the call has acquired. -/
def Call.held : Call n → Option (Fin n)
  | .push _ index i _ => some (slot index i)
  | .unlock j => some j
  | _ => none

/-- `Stop` has acquired the mutex and not released it. -/
def Stopper.holds : Stopper n → Nat → Bool
  | .lock i, j => j < i
  | .unlock i, j => i ≤ j
  | .notify i, j => i < j
  | _, _ => false

namespace State

variable {s s' : State n m} {e : Event n m} {w j : Fin n} {c : Caller n m}

/-- Who stands between `lock` and `unlock`. -/
def Holds (s : State n m) : Holder n m → Fin n → Prop
  | .call c, j => (s.calls c).held = some j
  | .worker w, j => j = w ∧ (s.workers w).ctl.holds = true
  | .stop, j => s.stopper.holds j = true

/-- The mutexes are held by those who stand between `lock` and `unlock`. -/
def Locks (s : State n m) : Prop := Guarded s.muts s.Holds

/-- Who holds a mutex after a worker moved. -/
theorem holds_setCtl (s : State n m) (w : Fin n) (x : WorkerCtl n m) (h : Holder n m) (j : Fin n) :
    (s.setCtl w x).Holds h j ↔ if h = .worker w then j = w ∧ x.holds = true else s.Holds h j := by
  rcases h with d | v | _
  · simp [Holds, setCtl]
  · by_cases hv : v = w
    · subst hv
      simp [Holds, workers_setCtl]
    · simp [Holds, workers_setCtl_of_ne s x hv, hv]
  · simp [Holds, setCtl]

/-- Who holds a mutex after a call moved. -/
theorem holds_setCall (s : State n m) (c : Caller n m) (x : Call n) (h : Holder n m) (j : Fin n) :
    (s.setCall c x).Holds h j ↔ if h = .call c then x.held = some j else s.Holds h j := by
  rcases h with d | v | _
  · by_cases hd : d = c
    · subst hd
      simp [Holds, calls_setCall]
    · simp [Holds, calls_setCall_of_ne s x hd, hd]
  · simp [Holds, setCall]
  · simp [Holds, setCall]

namespace Locks

section

variable (hl : s.Locks)
include hl

/-- A worker that keeps its mutex keeps the locks. -/
theorem setCtl {x : WorkerCtl n m} (hx : x.holds = (s.workers w).ctl.holds) : (s.setCtl w x).Locks := by
  refine Guarded.congr hl (fun h j => ?_)
  rw [holds_setCtl]
  split
  · rename_i hh
    subst hh
    rw [hx]
    rfl
  · exact Iff.rfl

/-- A worker acquires its mutex. -/
theorem lock {x : WorkerCtl n m} (hfree : s.muts w = none) (hw : (s.workers w).ctl.holds = false)
    (hx : x.holds = true) :
    ((s.setMut w (some (.worker w))).setCtl w x).Locks := by
  refine Guarded.acquire hl hfree (fun h j => ?_)
  rw [holds_setCtl, hx]
  split
  · rename_i hh
    subst hh
    simp [Holds, hw]
  · rename_i hh
    simp only [hh, false_and, or_false]
    exact Iff.rfl

/-- A worker releases its mutex. -/
theorem unlock {x : Worker n m} (hw : (s.workers w).ctl.holds = true) (hx : x.ctl.holds = false) :
    Locks { s.setMut w none with workers := update s.workers w x } := by
  have hheld : s.Holds (.worker w) w := ⟨rfl, hw⟩
  refine Guarded.release hl hheld (fun h j => ?_)
  rcases h with d | v | _
  · simp [Holds, State.setMut]
  · by_cases hv : v = w
    · subst hv
      simp +contextual [Holds, hx]
    · simp [Holds, hv]
  · simp [Holds, State.setMut]

/-- So does a call. -/
theorem setCall {x : Call n} (hx : x.held = (s.calls c).held) : (s.setCall c x).Locks := by
  refine Guarded.congr hl (fun h j => ?_)
  rw [holds_setCall]
  split
  · rename_i hh
    subst hh
    rw [hx]
    rfl
  · exact Iff.rfl

/-- A call acquires a mutex. -/
theorem lockCall {x : Call n} (hfree : s.muts j = none) (hc : (s.calls c).held = none) (hx : x.held = some j) :
    ((s.setMut j (some (.call c))).setCall c x).Locks := by
  refine Guarded.acquire hl hfree (fun h j => ?_)
  rw [holds_setCall, hx]
  split
  · rename_i hh
    subst hh
    simp [Holds, hc, eq_comm]
  · rename_i hh
    simp only [hh, false_and, or_false]
    exact Iff.rfl

/-- A call releases its mutex. -/
theorem unlockCall {x : Call n} (hc : (s.calls c).held = some j) (hx : x.held = none) :
    ((s.setMut j none).setCall c x).Locks := by
  have hheld : s.Holds (.call c) j := hc
  refine Guarded.release hl hheld (fun h j => ?_)
  rw [holds_setCall, hx]
  split
  · rename_i hh
    subst hh
    simp [Holds, hc, eq_comm]
  · rename_i hh
    simp only [hh, false_and, not_false_eq_true, and_true]
    exact Iff.rfl

/-- So does `Stop`. -/
theorem setStopper {x : Stopper n} (hx : ∀ j : Fin n, x.holds j = s.stopper.holds j) :
    Locks { s with stopper := x } := by
  refine Guarded.congr hl (fun h j => ?_)
  rcases h with d | v | _
  · exact Iff.rfl
  · exact Iff.rfl
  · show x.holds j = true ↔ _
    rw [hx]
    rfl

/-- `Stop` acquires the next mutex. -/
theorem stopLock (hs : s.stopper = .lock w) (hfree : s.muts w = none) :
    Locks { s.setMut w (some .stop) with stopper := .lock (w + 1) } := by
  refine Guarded.acquire hl hfree (fun h j => ?_)
  rcases h with d | v | _
  · simp [Holds, State.setMut]
  · simp [Holds, State.setMut]
  · simp [Holds, hs, Stopper.holds, Fin.ext_iff]
    omega

/-- `Stop` releases the next mutex. -/
theorem stopUnlock (hs : s.stopper = .unlock w) : Locks { s.setMut w none with stopper := .notify w } := by
  refine Guarded.release hl (h := .stop) (j := w) (by simp [Holds, hs, Stopper.holds]) (fun h j => ?_)
  rcases h with d | v | _
  · simp [Holds, State.setMut]
  · simp [Holds, State.setMut]
  · simp [Holds, hs, Stopper.holds, Fin.ext_iff]
    omega

/-- To wake a worker takes no mutex. -/
theorem notifyOne (w : Fin n) : (s.notifyOne w).Locks := by
  rcases s.notifyOne_eq w with ⟨heq, -⟩ | ⟨heq, hw⟩
  · rw [heq]
    exact hl
  · rw [heq]
    exact hl.setCtl (by rw [hw]; rfl)

/-- Every step keeps the locks. -/
theorem step (hm : Moves s e s') : s'.Locks := by
  cases hm with
  | call hc => exact Locks.setCall (c := _) hl (by rw [idle_of_mayCall hc]; rfl)
  | acquire hc hfree => exact hl.lockCall hfree (by rw [hc]; rfl) rfl
  | push hc =>
    exact Locks.setCall (s := s.setQueue _ _) hl (by rw [show (s.setQueue _ _).calls = s.calls from rfl, hc]; rfl)
  | full hc => exact hl.unlockCall (by rw [hc]; rfl) (by split <;> rfl)
  | unlock hc => exact hl.unlockCall (by rw [hc]; rfl) rfl
  | @notify c j hc =>
    refine (hl.notifyOne j).setCall ?_
    rw [calls_notifyOne, hc]
    rfl
  | pop hw =>
    exact Locks.setCtl (s := s.setQueue _ _) hl (by rw [show (s.setQueue _ _).workers = s.workers from rfl, hw]; rfl)
  | miss hw => exact hl.setCtl (by rw [hw]; rfl)
  | leave hw => exact hl.setCtl (by rw [hw]; rfl)
  | idle hw => exact hl.setCtl (by rw [hw]; rfl)
  | @wakeUpNext w func hw =>
    refine (hl.notifyOne (slot w 1)).setCtl ?_
    rw [workers_notifyOne (by rw [hw]; nofun), hw]
    rfl
  | lock hw hfree => exact hl.lock hfree (by rw [hw]; rfl) rfl
  | predicateStop hw => exact hl.setCtl (by rw [hw]; rfl)
  | predicate hw => exact hl.setCtl (by rw [hw]; rfl)
  | predicatePop hw =>
    exact Locks.setCtl (s := s.setQueue _ _) hl (by rw [show (s.setQueue _ _).workers = s.workers from rfl, hw]; rfl)
  | predicateMiss hw => exact hl.setCtl (by rw [hw]; rfl)
  | wait hw => exact hl.unlock (by rw [hw]; rfl) rfl
  | stopped hw => exact hl.unlock (by rw [hw]; rfl) rfl
  | resume hw => exact hl.unlock (by rw [hw]; rfl) rfl
  | finish hw => exact hl.setCtl (by rw [hw]; rfl)
  | wake hw => exact hl.setCtl (by rw [hw]; rfl)
  | stop hs => exact hl.setStopper (fun j => by rw [hs]; rfl)
  | stopTimer hs => exact hl.setStopper (fun j => by rw [hs]; simp [Stopper.holds])
  | stopLock hs hfree => exact hl.stopLock hs hfree
  | setStop hs hi =>
    exact Locks.setStopper (s := { s with stop := true }) hl (fun j => by simp [hs, Stopper.holds]; omega)
  | stopUnlock hs => exact hl.stopUnlock hs
  | @stopNotify w hs =>
    refine (hl.notifyOne w).setStopper (fun j => ?_)
    rw [stopper_notifyOne, hs]
    exact decide_eq_decide.2 Nat.succ_le_iff
  | unlocked hs hi => exact hl.setStopper (fun j => by rw [hs]; simp [Stopper.holds]; omega)
  | join hs => exact hl.setStopper (fun j => by rw [hs]; rfl)
  | joined hs => exact hl.setStopper (fun j => by rw [hs]; rfl)

end

end Locks

end State

/-! ## `stop_` -/

/-- What a worker has seen of `stop_` is what `stop_` is. -/
def Worker.Agrees (x : Worker n m) (stop : Bool) : Prop :=
  match x.ctl with
  | .tryPop _ | .wakeUpNext _ | .run _ => x.stopWhenTryPopFailed = true → stop = true
  | .lock | .predicate | .wait => x.stopWhenTryPopFailed = false
  | .predicateTryPop _ | .waited (some _) => x.stopWhenTryPopFailed = false ∧ stop = false
  | .waited none => x.stopWhenTryPopFailed = false ∧ stop = true
  | .returned => x.stopWhenTryPopFailed = true ∧ stop = true

/-- `Stop` has set `stop_`. -/
def Stopper.isSet : Stopper n → Bool
  | .idle | .stopTimer | .lock _ => false
  | _ => true

/-- `stop_` may be set while a worker does not hold its mutex. -/
theorem Worker.Agrees.setStop {x : Worker n m} {stop : Bool} (h : x.Agrees stop) (hx : x.ctl.holds = false) :
    x.Agrees true := by
  obtain ⟨ctl, flag⟩ := x
  cases ctl with
  | tryPop i => exact fun _ => rfl
  | wakeUpNext func => exact fun _ => rfl
  | run func => exact fun _ => rfl
  | lock => exact h
  | predicate => nomatch hx
  | predicateTryPop i => nomatch hx
  | wait => exact h
  | waited func => nomatch hx
  | returned => exact ⟨h.1, rfl⟩

namespace State

variable {s s' : State n m} {e : Event n m} {w : Fin n} {c : Caller n m}

/-- Everybody agrees on `stop_`. -/
structure Flags (s : State n m) : Prop where
  workers : ∀ w, (s.workers w).Agrees s.stop
  stopper : s.stop = s.stopper.isSet

namespace Flags

/-- A worker moves. -/
theorem worker (hf : s.Flags) {x : Worker n m} (hstop : s'.stop = s.stop) (hstopper : s'.stopper = s.stopper)
    (hworkers : s'.workers = update s.workers w x) (hx : x.Agrees s.stop) : s'.Flags := by
  refine ⟨fun v => ?_, by rw [hstop, hstopper]; exact hf.stopper⟩
  rw [hworkers, hstop]
  by_cases hv : v = w
  · subst hv
    rw [update_self]
    exact hx
  · rw [update_of_ne hv]
    exact hf.workers v

/-- A worker agrees with its flag. -/
theorem agrees (hf : s.Flags) {x : WorkerCtl n m} (hw : (s.workers w).ctl = x) :
    Worker.Agrees { s.workers w with ctl := x } s.stop := hw ▸ hf.workers w

/-- To wake a worker sets no flag. -/
theorem notifyOne (hf : s.Flags) (w : Fin n) : (s.notifyOne w).Flags := by
  rcases s.notifyOne_eq w with ⟨heq, -⟩ | ⟨heq, hw⟩
  · rw [heq]
    exact hf
  · rw [heq]
    exact hf.worker rfl rfl rfl (hf.agrees hw :)

/-- `Stop` moves without setting a flag. -/
theorem setStopper (hf : s.Flags) {x : Stopper n} (hx : x.isSet = s.stopper.isSet) : Flags { s with stopper := x } :=
  ⟨hf.workers, hf.stopper.trans hx.symm⟩

/-- `Stop` sets `stop_`: it holds all mutexes. -/
theorem setStop (hf : s.Flags) (hl : s.Locks) {i : Nat} (hs : s.stopper = .lock i) (hi : n ≤ i) :
    Flags { s with stop := true, stopper := .unlock 0 } := by
  refine ⟨fun w => (hf.workers w).setStop ?_, rfl⟩
  refine Bool.eq_false_of_not_eq_true (fun hw => ?_)
  have hworker : s.Holds (.worker w) w := ⟨rfl, hw⟩
  have hstop : s.Holds .stop w := by
    simp only [Holds, hs, Stopper.holds, decide_eq_true_eq]
    exact Nat.lt_of_lt_of_le w.isLt hi
  nomatch Guarded.unique hl hworker hstop

/-- Every step keeps the flags. -/
theorem step (hf : s.Flags) (hl : s.Locks) (hm : Moves s e s') : s'.Flags := by
  cases hm with
  | call hc => exact ⟨hf.workers, hf.stopper⟩
  | acquire hc => exact ⟨hf.workers, hf.stopper⟩
  | push hc => exact ⟨hf.workers, hf.stopper⟩
  | full hc => exact ⟨hf.workers, hf.stopper⟩
  | unlock hc => exact ⟨hf.workers, hf.stopper⟩
  | @notify c j hc => exact ⟨(hf.notifyOne j).workers, (hf.notifyOne j).stopper⟩
  | pop hw => exact hf.worker rfl rfl rfl (hf.agrees hw :)
  | miss hw => exact hf.worker rfl rfl rfl (hf.agrees hw :)
  | leave hw hq hi hlast => exact hf.worker rfl rfl rfl ⟨hlast, hf.agrees hw hlast⟩
  | idle hw hlast => exact hf.worker rfl rfl rfl hlast
  | @wakeUpNext w func hw =>
    have hagrees : Worker.Agrees { s.workers w with ctl := .run func } s.stop := (hf.agrees hw :)
    rw [← workers_notifyOne (w := slot w 1) (by rw [hw]; nofun)] at hagrees
    refine (hf.notifyOne (slot w 1)).worker rfl rfl rfl ?_
    rw [stop_notifyOne]
    exact hagrees
  | lock hw => exact hf.worker rfl rfl rfl (hf.agrees hw :)
  | predicateStop hw hstop => exact hf.worker rfl rfl rfl ⟨(hf.agrees hw :), hstop⟩
  | predicate hw hstop => exact hf.worker rfl rfl rfl ⟨(hf.agrees hw :), hstop⟩
  | predicatePop hw => exact hf.worker rfl rfl rfl (hf.agrees hw :)
  | predicateMiss hw => exact hf.worker rfl rfl rfl (hf.agrees hw :)
  | wait hw => exact hf.worker rfl rfl rfl (hf.agrees hw).1
  | stopped hw hstop => exact hf.worker rfl rfl rfl (fun _ => hstop)
  | resume hw =>
    have hagrees := hf.agrees hw
    refine hf.worker rfl rfl rfl (fun hlast => ?_)
    nomatch hlast.symm.trans hagrees.1
  | finish hw => exact hf.worker rfl rfl rfl (hf.agrees hw :)
  | wake hw => exact hf.worker rfl rfl rfl (hf.agrees hw :)
  | stop hs => exact hf.setStopper (by rw [hs]; rfl)
  | stopTimer hs => exact hf.setStopper (by rw [hs]; rfl)
  | stopLock hs => exact ⟨hf.workers, hf.stopper.trans (by rw [hs]; rfl)⟩
  | setStop hs hi => exact hf.setStop hl hs hi
  | stopUnlock hs => exact ⟨hf.workers, hf.stopper.trans (by rw [hs]; rfl)⟩
  | @stopNotify w hs => exact (hf.notifyOne w).setStopper (by rw [stopper_notifyOne, hs]; rfl)
  | unlocked hs => exact hf.setStopper (by rw [hs]; rfl)
  | join hs => exact hf.setStopper (by rw [hs]; rfl)
  | joined hs => exact hf.setStopper (by rw [hs]; rfl)

end Flags

end State

end Executor

end Tunnel
