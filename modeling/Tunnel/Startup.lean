import Mathlib.Data.Fintype.Sum
import Mathlib.Logic.Function.Basic
import Mathlib.Tactic.DeriveFintype

/-!
# The constructor of the executor

The constructor of `executor/tunnel_executor.h` starts the thread of the timers (`TimerManager::Run` of
`executor/timer.h`) and the workers, and waits on `init_cv` until all of them have counted themselves in `finished`.
`init_mut`, `init_cv` and `finished` are variables of the constructor: once it has returned they are gone, and a thread
that touches one of them after that is in `late`.

`finished += 1` reads and writes in two steps. `wait` may wake up of itself.
-/

namespace Tunnel

open Function

namespace Executor

/-- The threads that the constructor starts. -/
inductive Thread (n : Nat) where
  | timer
  | worker (w : Fin n)
  deriving DecidableEq, Fintype

/-- Where a thread stands. -/
inductive ThreadCtl where
  | unborn
  /-- before it acquires `init_mut` -/
  | lock
  /-- before it reads `finished` -/
  | read
  /-- before it writes `finished`, one more than what it has read -/
  | write (count : Nat)
  /-- before `guard.unlock()` -/
  | unlock
  /-- before `init_cv.notify_one()` -/
  | notify
  /-- in `ctx_.run()`, or in the loop of `WorkerMain` -/
  | loop
  deriving DecidableEq

/-- Where the constructor stands. -/
inductive MainCtl where
  /-- before `timer_manager_.Run` -/
  | startTimer
  /-- in the loop that starts the workers -/
  | startWorker (i : Nat)
  /-- before it acquires `init_mut`, for `wait` or in it -/
  | lock
  /-- in `wait`, before the predicate -/
  | predicate
  /-- in `wait`, without the mutex -/
  | wait
  /-- after `wait`, with the mutex -/
  | leave
  | returned
  deriving DecidableEq

/-- What holds `init_mut`. -/
inductive InitHolder (n : Nat) where
  | main
  | thread (t : Thread n)
  deriving DecidableEq

namespace Thread

variable {n : Nat}

/-- Where a thread goes on when it has counted itself: a worker gives the mutex back before it notifies, the thread of
the timers after that. -/
def written : Thread n → ThreadCtl
  | .timer => .notify
  | .worker _ => .unlock

def unlocked : Thread n → ThreadCtl
  | .timer => .loop
  | .worker _ => .notify

def notified : Thread n → ThreadCtl
  | .timer => .unlock
  | .worker _ => .loop

end Thread

/-- The constructor and the threads it starts. -/
structure Startup (n : Nat) where
  main : MainCtl
  threads : Thread n → ThreadCtl
  initMut : Option (InitHolder n)
  finished : Nat
  late : List (Thread n)

/-- The steps. -/
inductive StartupEvent (n : Nat) where
  /-- the constructor goes on -/
  | main
  /-- a thread goes on -/
  | thread (t : Thread n)
  /-- `wait` wakes up of itself -/
  | wake
  deriving DecidableEq

namespace Startup

variable {n : Nat}

/-- Before the constructor has started a thread. -/
def init (n : Nat) : Startup n where
  main := .startTimer
  threads _ := .unborn
  initMut := none
  finished := 0
  late := []

/-- A thread goes on at another place. What it did before touched a variable of the constructor. -/
def setThread (s : Startup n) (t : Thread n) (x : ThreadCtl) : Startup n :=
  { s with threads := update s.threads t x, late := if s.main = .returned then s.late ++ [t] else s.late }

/-- `init_cv.notify_one()`: only the constructor waits. -/
def notifyOne (s : Startup n) : Startup n := if s.main = .wait then { s with main := .lock } else s

/-- The constructor goes on. -/
def construct (s : Startup n) : Option (Startup n) :=
  match s.main with
  | .startTimer => some { s with threads := update s.threads .timer .lock, main := .startWorker 0 }
  | .startWorker i =>
    if h : i < n then some { s with threads := update s.threads (.worker ⟨i, h⟩) .lock, main := .startWorker (i + 1) }
    else some { s with main := .lock }
  | .lock => if s.initMut = none then some { s with initMut := some .main, main := .predicate } else none
  | .predicate =>
    some (if s.finished = n + 1 then { s with main := .leave } else { s with initMut := none, main := .wait })
  | .wait => none
  | .leave => some { s with initMut := none, main := .returned }
  | .returned => none

/-- A thread goes on, up to its loop. -/
def thread (s : Startup n) (t : Thread n) : Option (Startup n) :=
  match s.threads t with
  | .unborn => none
  | .lock => if s.initMut = none then some (Startup.setThread { s with initMut := some (.thread t) } t .read) else none
  | .read => some (s.setThread t (.write s.finished))
  | .write count => some (Startup.setThread { s with finished := count + 1 } t t.written)
  | .unlock => some (Startup.setThread { s with initMut := none } t t.unlocked)
  | .notify => some (s.notifyOne.setThread t t.notified)
  | .loop => none

/-- The state a step leads to, if it can be taken. -/
def step (s : Startup n) : StartupEvent n → Option (Startup n)
  | .main => s.construct
  | .thread t => s.thread t
  | .wake => if s.main = .wait then some { s with main := .lock } else none

/-- A run along a list of steps. -/
def runAll (s : Startup n) : List (StartupEvent n) → Option (Startup n)
  | [] => some s
  | e :: rest => (s.step e).bind (fun s => runAll s rest)

end Startup

end Executor

end Tunnel
