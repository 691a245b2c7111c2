import Mathlib.Data.Fintype.Sum
import Mathlib.Logic.Relation
import Mathlib.Tactic.DeriveFintype

/-!
# The executor

`executor/tunnel_executor.h`: `n` workers, each with a queue of tasks, a mutex and a condition variable. Any thread
calls `schedule`; a worker runs what it finds in the queues, its own first, and `Stop` lets the workers run the queues
empty and joins them. A step is one access of a thread to what it shares with the others: a mutex, a queue, a condition
variable or `stop_`. `MPMCQueue` is a bounded list, so that `try_push` and `try_pop` take effect at once; the random
numbers are whatever the step says. What a task does is not said: it may call `schedule` as often as it likes and then
returns.

The calls of `schedule` are numbered, and a task remembers its call; `accepted` and `invoked` record what happened.
Nothing reads them.
-/

namespace Tunnel

open Function

namespace Executor

/-- The capacity of each `MPMCQueue`. -/
def capacity : Nat := 102400

/-- A thread that calls `schedule`: a worker, from the task it runs, the thread of the timers, or one of `m` others. -/
inductive Caller (n m : Nat) where
  | worker (w : Fin n)
  | timer
  | outer (c : Fin m)
  deriving DecidableEq, Fintype

/-- What holds a mutex: a call of `schedule`, the loop of a worker, or `Stop`. -/
inductive Holder (n m : Nat) where
  | call (c : Caller n m)
  | worker (w : Fin n)
  | stop
  deriving DecidableEq

/-- A function in a queue: the number of the call of `schedule` that brought it, who called, and whether the call
acquired the mutex of the queue before `Stop` did. -/
structure Task (n m : Nat) where
  id : Nat
  caller : Caller n m
  beforeStop : Bool
  deriving DecidableEq

/-- `(index + i) % GetThreadNum()`. -/
def slot {n : Nat} (index : Fin n) (i : Nat) : Fin n := ⟨(index + i) % n, Nat.mod_lt _ index.pos⟩

/-- The worker at whose queue `schedule` begins: on a thread of the executor its own one, but in one case out of four.
-/
def workerIndex {n : Nat} (current : Option (Fin n)) (rn : Fin 4) (random : Fin n) : Fin n :=
  match current with
  | some w => if rn = 0 then random else w
  | none => random

/-- Where a call of `schedule` stands. -/
inductive Call (n : Nat) where
  | idle
  /-- before it acquires the mutex of the queue it tries, the one after `i` others -/
  | lock (id : Nat) (index : Fin n) (i : Nat)
  /-- before `try_push` -/
  | push (id : Nat) (index : Fin n) (i : Nat) (beforeStop : Bool)
  /-- before `guard.unlock()` -/
  | unlock (j : Fin n)
  /-- before `notify_one` -/
  | notify (j : Fin n)
  deriving DecidableEq

/-- Where `WorkerMain` stands. -/
inductive WorkerCtl (n m : Nat) where
  /-- in `TryPopStartFrom`, before the `try_pop` after `i` others -/
  | tryPop (i : Nat)
  /-- before `WakeUpNextWorker` -/
  | wakeUpNext (func : Task n m)
  /-- in `func()` -/
  | run (func : Task n m)
  /-- before it acquires its mutex, for `wait` or in it -/
  | lock
  /-- in `wait`, before the predicate reads `stop_` -/
  | predicate
  /-- in the `TryPopStartFrom` of the predicate -/
  | predicateTryPop (i : Nat)
  /-- in `wait`, without the mutex -/
  | wait
  /-- after `wait`, with what the predicate has popped -/
  | waited (func : Option (Task n m))
  | returned
  deriving DecidableEq

structure Worker (n m : Nat) where
  ctl : WorkerCtl n m
  stopWhenTryPopFailed : Bool
  deriving DecidableEq

/-- Where `Stop` stands. -/
inductive Stopper (n : Nat) where
  | idle
  /-- in `timer_manager_.Stop()` -/
  | stopTimer
  | lock (i : Nat)
  | unlock (i : Nat)
  | notify (i : Fin n)
  | join (i : Nat)
  | returned
  deriving DecidableEq

/-- `Stop` has acquired the mutex. -/
def Stopper.acquired {n : Nat} : Stopper n → Nat → Bool
  | .idle, _ => false
  | .stopTimer, _ => false
  | .lock i, j => j < i
  | _, _ => true

structure State (n m : Nat) where
  queues : Fin n → List (Task n m)
  muts : Fin n → Option (Holder n m)
  stop : Bool
  workers : Fin n → Worker n m
  calls : Caller n m → Call n
  stopper : Stopper n
  issued : Nat
  accepted : List (Task n m)
  invoked : List (Task n m)

namespace State

variable {n m : Nat}

/-- The executor when its constructor returns. -/
def start (n m : Nat) : State n m where
  queues := fun _ => []
  muts := fun _ => none
  stop := false
  workers := fun _ => { ctl := .tryPop 0, stopWhenTryPopFailed := false }
  calls := fun _ => .idle
  stopper := .idle
  issued := 0
  accepted := []
  invoked := []

def setQueue (s : State n m) (j : Fin n) (l : List (Task n m)) : State n m := { s with queues := update s.queues j l }

def setMut (s : State n m) (j : Fin n) (h : Option (Holder n m)) : State n m := { s with muts := update s.muts j h }

def setCall (s : State n m) (c : Caller n m) (x : Call n) : State n m := { s with calls := update s.calls c x }

def setCtl (s : State n m) (w : Fin n) (x : WorkerCtl n m) : State n m :=
  { s with workers := update s.workers w { s.workers w with ctl := x } }

/-- `notify_one` on the condition variable of a worker, on which nobody else waits. -/
def notifyOne (s : State n m) (w : Fin n) : State n m := if (s.workers w).ctl = .wait then s.setCtl w .lock else s

/-- `func()` begins. -/
def invoke (s : State n m) (w : Fin n) (func : Task n m) : State n m :=
  { s.setCtl w (.run func) with invoked := s.invoked ++ [func] }

/-- The worker that a thread is, if it may call `schedule` now: a worker in a task, the thread of the timers until
`Stop` has joined it, and any other thread. -/
def mayCall (s : State n m) (c : Caller n m) : Option (Option (Fin n)) :=
  if s.calls c ≠ .idle then none
  else
    match c with
    | .worker w =>
      match (s.workers w).ctl with
      | .run _ => some (some w)
      | _ => none
    | .timer => if s.stopper = .idle ∨ s.stopper = .stopTimer then some none else none
    | .outer _ => some none

/-- `schedule` begins. -/
def call (s : State n m) (c : Caller n m) (rn : Fin 4) (random : Fin n) : Option (State n m) :=
  (s.mayCall c).map (fun current =>
    { s.setCall c (.lock s.issued (workerIndex current rn random) 0) with issued := s.issued + 1 })

/-- `schedule` goes on. -/
def schedule (s : State n m) (c : Caller n m) : Option (State n m) :=
  match s.calls c with
  | .idle => none
  | .lock id index i =>
    if s.muts (slot index i) = none then
      some ((s.setMut (slot index i) (some (.call c))).setCall c
        (.push id index i (!s.stopper.acquired (slot index i))))
    else none
  | .push id index i beforeStop =>
    if (s.queues (slot index i)).length < capacity then
      let func : Task n m := { id := id, caller := c, beforeStop := beforeStop }
      some { (s.setQueue (slot index i) (s.queues (slot index i) ++ [func])).setCall c (.unlock (slot index i)) with
        accepted := s.accepted ++ [func] }
    else some ((s.setMut (slot index i) none).setCall c (if i + 1 < n then .lock id index (i + 1) else .idle))
  | .unlock j => some ((s.setMut j none).setCall c (.notify j))
  | .notify j => some ((s.notifyOne j).setCall c .idle)

/-- `WorkerMain` goes on, outside of tasks. An empty `func` cannot be called. -/
def work (s : State n m) (w : Fin n) : Option (State n m) :=
  match (s.workers w).ctl with
  | .tryPop i =>
    match s.queues (slot w i) with
    | func :: rest => some ((s.setQueue (slot w i) rest).setCtl w (.wakeUpNext func))
    | [] =>
      some (s.setCtl w
        (if i + 1 < n then .tryPop (i + 1)
        else if (s.workers w).stopWhenTryPopFailed = true then .returned
        else .lock))
  | .wakeUpNext func => some ((s.notifyOne (slot w 1)).invoke w func)
  | .run _ => none
  | .lock => if s.muts w = none then some ((s.setMut w (some (.worker w))).setCtl w .predicate) else none
  | .predicate => some (s.setCtl w (if s.stop = true then .waited none else .predicateTryPop 0))
  | .predicateTryPop i =>
    match s.queues (slot w i) with
    | func :: rest => some ((s.setQueue (slot w i) rest).setCtl w (.waited (some func)))
    | [] => if i + 1 < n then some (s.setCtl w (.predicateTryPop (i + 1))) else some ((s.setMut w none).setCtl w .wait)
  | .wait => none
  | .waited func =>
    if s.stop = true then
      some { s.setMut w none with workers := update s.workers w { ctl := .tryPop 0, stopWhenTryPopFailed := true } }
    else func.map ((s.setMut w none).invoke w)
  | .returned => none

/-- The task that a worker runs returns. -/
def finish (s : State n m) (w : Fin n) : Option (State n m) :=
  match (s.workers w).ctl with
  | .run _ => if s.calls (.worker w) = .idle then some (s.setCtl w (.tryPop 0)) else none
  | _ => none

/-- `Stop` goes on. -/
def stopping (s : State n m) : Option (State n m) :=
  match s.stopper with
  | .idle => none
  | .stopTimer => if s.calls .timer = .idle then some { s with stopper := .lock 0 } else none
  | .lock i =>
    if h : i < n then
      if s.muts ⟨i, h⟩ = none then some { s.setMut ⟨i, h⟩ (some .stop) with stopper := .lock (i + 1) } else none
    else some { s with stop := true, stopper := .unlock 0 }
  | .unlock i =>
    if h : i < n then some { s.setMut ⟨i, h⟩ none with stopper := .notify ⟨i, h⟩ }
      else some { s with stopper := .join 0 }
  | .notify i => some { s.notifyOne i with stopper := .unlock (i + 1) }
  | .join i =>
    if h : i < n then
      if (s.workers ⟨i, h⟩).ctl = .returned then some { s with stopper := .join (i + 1) } else none
    else some { s with stopper := .returned }
  | .returned => none

end State

/-- The steps. -/
inductive Event (n m : Nat) where
  /-- a thread calls `schedule`, with the random numbers that it draws -/
  | call (c : Caller n m) (rn : Fin 4) (random : Fin n)
  | schedule (c : Caller n m)
  | work (w : Fin n)
  | finish (w : Fin n)
  /-- a worker wakes up without being notified -/
  | wake (w : Fin n)
  /-- `Stop` is called -/
  | stop
  | stopping

/-- The steps that a thread takes of itself, on its way through `schedule`, `WorkerMain` or `Stop` or at the end of a
task. The others come from outside: new calls, and wake-ups of nobody's making. -/
def Event.internal {n m : Nat} : Event n m → Bool
  | .schedule _ => true
  | .work _ => true
  | .finish _ => true
  | .stopping => true
  | .call _ _ _ => false
  | .wake _ => false
  | .stop => false

namespace State

variable {n m : Nat}

/-- The state a step leads to, if it can be taken. -/
def step (s : State n m) : Event n m → Option (State n m)
  | .call c rn random => s.call c rn random
  | .schedule c => s.schedule c
  | .work w => s.work w
  | .finish w => s.finish w
  | .wake w => if (s.workers w).ctl = .wait then some (s.setCtl w .lock) else none
  | .stop => if s.stopper = .idle then some { s with stopper := .stopTimer } else none
  | .stopping => s.stopping

/-- A run along a list of steps. -/
def runAll (s : State n m) : List (Event n m) → Option (State n m)
  | [] => some s
  | e :: rest => (s.step e).bind (fun s => runAll s rest)

end State

end Executor

end Tunnel
