import Tunnel.Executor

/-!
# The timers of the executor

`executor/timer.h` and `PushTimer` of `executor/tunnel_executor.h`, on the executor of `Tunnel.Executor`. Any thread
pushes a timer; the thread of the timers runs `ctx_.run()`, which calls the handlers of timers that are due, one at a
time and in whatever order, until somebody calls `ctx_.stop()`. A handler calls `schedule`, and throws when no queue has
room: nobody catches that, so the process ends. `timer_manager_.Stop()` stops the context and joins the thread; a timer
that is still there is never called.

`pushed` and `fired` record what happened. Nothing reads them, but that a timer is numbered by those before it.
-/

namespace Tunnel

namespace Executor

/-- A timer, and when it is due. -/
structure Timer where
  id : Nat
  due : Nat
  deriving DecidableEq

/-- A timer whose handler was called, and the number of its call of `schedule`. -/
structure Fired where
  timer : Timer
  call : Nat
  deriving DecidableEq

/-- The executor with its timers: the time, the timers that `ctx_` has, whether `ctx_` is stopped, whether a handler
runs, and whether the process has ended. -/
structure Timed (n m : Nat) where
  executor : State n m
  now : Nat
  timers : List Timer
  stopped : Bool
  firing : Bool
  ended : Bool
  pushed : List Timer
  fired : List Fired

/-- The steps: those of the executor, and those of the timers. -/
inductive TimedEvent (n m : Nat) where
  | executor (e : Event n m)
  /-- `PushTimer`, with a duration that may be negative -/
  | pushTimer (duration : Int)
  /-- time passes -/
  | elapse
  /-- `ctx_.stop()` -/
  | stopContext
  /-- a handler is called, and calls `schedule` with these random numbers -/
  | fire (i : Nat) (rn : Fin 4) (random : Fin n)
  /-- the `schedule` of a handler goes on -/
  | handler

namespace Timed

variable {n m : Nat}

/-- The executor when its constructor returns. -/
def start (n m : Nat) : Timed n m where
  executor := .start n m
  now := 0
  timers := []
  stopped := false
  firing := false
  ended := false
  pushed := []
  fired := []

/-- What the thread of the timers does is said below. `timer_manager_.Stop()` returns when the context is stopped and no
handler runs. -/
def ready (s : Timed n m) : Event n m → Bool
  | .call .timer _ _ => false
  | .schedule .timer => false
  | .stopping => s.executor.stopper ≠ .stopTimer || (s.stopped && !s.firing)
  | _ => true

/-- `PushTimer`. -/
def pushTimer (s : Timed n m) (duration : Int) : Timed n m :=
  let t : Timer := { id := s.pushed.length, due := s.now + duration.toNat }
  { s with timers := s.timers ++ [t], pushed := s.pushed ++ [t] }

/-- `ctx_.run()` calls the handler of a timer that is due. -/
def fire (s : Timed n m) (i : Nat) (rn : Fin 4) (random : Fin n) : Option (Timed n m) :=
  if s.stopped || s.firing then none
  else
    match s.timers[i]? with
    | none => none
    | some t =>
      if t.due ≤ s.now then
        (s.executor.step (.call .timer rn random)).map (fun x =>
          { s with
            executor := x
            timers := s.timers.eraseIdx i
            firing := true
            fired := s.fired ++ [{ timer := t, call := s.executor.issued }] })
      else none

/-- The handler after a step of its `schedule`: if that has returned, the handler returns or throws. -/
def handled (s : Timed n m) (x : State n m) : Timed n m :=
  match s.executor.calls .timer, x.calls .timer with
  | .push _ _ _ _, .idle => { s with executor := x, ended := true }
  | _, .idle => { s with executor := x, firing := false }
  | _, _ => { s with executor := x }

/-- The state a step leads to, if it can be taken. -/
def step (s : Timed n m) (e : TimedEvent n m) : Option (Timed n m) :=
  if s.ended then none
  else
    match e with
    | .executor e => if s.ready e then (s.executor.step e).map (fun x => { s with executor := x }) else none
    | .pushTimer duration => some (s.pushTimer duration)
    | .elapse => some { s with now := s.now + 1 }
    | .stopContext =>
      if s.executor.stopper = .stopTimer ∧ s.stopped = false then some { s with stopped := true } else none
    | .fire i rn random => s.fire i rn random
    | .handler => if s.firing then (s.executor.step (.schedule .timer)).map s.handled else none

/-- A run along a list of steps. -/
def runAll (s : Timed n m) : List (TimedEvent n m) → Option (Timed n m)
  | [] => some s
  | e :: rest => (s.step e).bind (fun s => runAll s rest)

/-- How often the function of a timer has been called. -/
def runs (s : Timed n m) (id : Nat) : Nat :=
  s.executor.invoked.countP (fun func => s.fired.any (fun f => f.timer.id == id && f.call == func.id))

end Timed

/-- The steps that a thread takes of itself. -/
def TimedEvent.internal {n m : Nat} : TimedEvent n m → Bool
  | .executor e => e.internal
  | .stopContext => true
  | .fire _ _ _ => true
  | .handler => true
  | .pushTimer _ => false
  | .elapse => false

end Executor

end Tunnel
