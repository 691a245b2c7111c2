import Tunnel.Lib.Monitor

/-!
# BoundedQueue

`queue/boundedqueue.h`: a queue behind a mutex and two condition variables, as a monitor. Assumed of `async_simple`: its
`Mutex` excludes; `ConditionVariable::wait` gives the mutex back while it sleeps, may return without a reason and then
looks at its predicate again, under the mutex; `notifyOne` wakes one of those that sleep.
-/

namespace Tunnel

open Lib

/-- The calls. -/
inductive QueueOp (T : Type) where
  | push (element : T)
  | tryPush (element : T)
  | pop
  | tryPop
  deriving DecidableEq

/-- What they return: `Push`, or `TryPush` with `true`; `TryPush` with `false`; `Pop` or `TryPop` with an element;
`TryPop` without. -/
inductive QueueRes (T : Type) where
  | pushed
  | full
  | popped (element : T)
  | empty
  deriving DecidableEq

/-- `empty_cv_` and `filled_cv_`. -/
inductive QueueCv where
  | empty
  | filled
  deriving DecidableEq

namespace BoundedQueue

variable {T : Type}

/-- `queue_.front()` and `queue_.pop_front()`, which are undefined on an empty queue. -/
def takeFront : List T → Option (QueueRes T × List T)
  | [] => none
  | result :: queue => some (.popped result, queue)

/-- `Pop`. -/
def pop : Operation (List T) (QueueRes T) QueueCv where
  blocked queue := queue.isEmpty
  otherwise := .wait .empty (fun queue => !queue.isEmpty)
  body := takeFront
  notifies := .filled

/-- `TryPop`. -/
def tryPop : Operation (List T) (QueueRes T) QueueCv where
  blocked queue := queue.isEmpty
  otherwise := .refuse .empty
  body := takeFront
  notifies := .filled

/-- `Push`. Its check is for a size equal to the capacity, its predicate for a size below it. -/
def push (capacity : Nat) (element : T) : Operation (List T) (QueueRes T) QueueCv where
  blocked queue := queue.length == capacity
  otherwise := .wait .filled (fun queue => queue.length < capacity)
  body queue := some (.pushed, queue ++ [element])
  notifies := .empty

/-- `TryPush`. -/
def tryPush (capacity : Nat) (element : T) : Operation (List T) (QueueRes T) QueueCv where
  blocked queue := queue.length == capacity
  otherwise := .refuse .full
  body queue := some (.pushed, queue ++ [element])
  notifies := .empty

/-- A queue of this capacity. -/
def operation (capacity : Nat) : QueueOp T → Operation (List T) (QueueRes T) QueueCv
  | .push element => push capacity element
  | .tryPush element => tryPush capacity element
  | .pop => pop
  | .tryPop => tryPop

/-- A queue that coroutines `C` use. -/
abbrev State (C T : Type) := Monitor.State C (List T) (QueueOp T) (QueueRes T)

/-! ## A bounded FIFO -/

/-- The calls on a bounded FIFO without concurrency. -/
inductive Effect (capacity : Nat) : List T → QueueOp T → QueueRes T → List T → Prop where
  | push {queue} (element : T) (h : queue.length < capacity) :
      Effect capacity queue (.push element) .pushed (queue ++ [element])
  | tryPush {queue} (element : T) (h : queue.length < capacity) :
      Effect capacity queue (.tryPush element) .pushed (queue ++ [element])
  | full {queue} (element : T) (h : queue.length = capacity) : Effect capacity queue (.tryPush element) .full queue
  | pop (element : T) (queue : List T) : Effect capacity (element :: queue) .pop (.popped element) queue
  | tryPop (element : T) (queue : List T) : Effect capacity (element :: queue) .tryPop (.popped element) queue
  | empty : Effect capacity [] .tryPop .empty []

/-- The element that a call put into the queue. -/
def acceptedBy : QueueOp T × QueueRes T → List T
  | (.push element, .pushed) => [element]
  | (.tryPush element, .pushed) => [element]
  | _ => []

/-- The element that a call returned. -/
def returnedBy : QueueOp T × QueueRes T → List T
  | (_, .popped element) => [element]
  | _ => []

variable {C : Type}

/-- The elements that these calls put into the queue, in the order of the calls, and who did. -/
def accepted (calls : List (C × (QueueOp T × QueueRes T))) :
    List (C × T) := calls.flatMap (fun x => (acceptedBy x.2).map (fun v => (x.1, v)))

/-- The elements that these calls returned. -/
def returned (calls : List (C × (QueueOp T × QueueRes T))) : List T := calls.flatMap (fun x => returnedBy x.2)

/-- The coroutine sleeps in `Pop`. -/
def sleepsInPop : Monitor.Ctl (QueueOp T) (QueueRes T) → Bool
  | .asleep .pop => true
  | _ => false

/-- The coroutine sleeps in `Push`. -/
def sleepsInPush : Monitor.Ctl (QueueOp T) (QueueRes T) → Bool
  | .asleep (.push _) => true
  | _ => false

/-- The coroutine was woken in `Pop` and has not yet the lock. -/
def wokenInPop : Monitor.Ctl (QueueOp T) (QueueRes T) → Bool
  | .woken .pop => true
  | _ => false

/-- The coroutine was woken in `Push` and has not yet the lock. -/
def wokenInPush : Monitor.Ctl (QueueOp T) (QueueRes T) → Bool
  | .woken (.push _) => true
  | _ => false

end BoundedQueue

end Tunnel
