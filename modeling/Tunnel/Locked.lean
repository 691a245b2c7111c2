import Tunnel.BoundedQueue
import Tunnel.Lib.Agents
import Tunnel.Run

/-!
# Pipelines on their locks

`Run` takes the queues to be atomic. Here every queue of a pipeline, and the abort channel, is the `BoundedQueue` of
`queue/boundedqueue.h` with its mutex and its condition variables: a processor that pops or pushes calls it, waits for
the lock, sleeps and is woken, in any interleaving with the others. Between two calls a processor does what it does in
`Run`.

The end of the process is no step here: this is about pipelines that bind the abort channel and have no node whose
channel was never set, which do not end it.
-/

namespace Tunnel

open Lib

variable {V : Type}

/-- What is in a queue: `std::optional<int>` in the abort channel (`none`), `std::optional<T>` in the others. -/
abbrev Item (V : Type) : Option Queue → Type
  | none => Option Int
  | some _ => Option V

namespace Proc

/-- The call that a processor makes next, and at which queue; `TryPush(0)` tells of an exception. -/
def wants (x : Proc V) : Option ((q : Option Queue) × QueueOp (Item V q)) :=
  match x.action with
  | .pop _ q => some ⟨some q, .pop⟩
  | .push _ q v => some ⟨some q, .push v⟩
  | .tryPop => some ⟨none, .tryPop⟩
  | .tryPush => some ⟨none, .tryPush (some 0)⟩
  | .internal => none
  | .halt => none

/-- Where the processor goes on with what the call returned; `TryPop` is asked for `available()`. -/
def resume (x : Proc V) : (q : Option Queue) → QueueRes (Item V q) → Proc V
  | some _, .popped v =>
    match x.action with
    | .pop i _ => x.popped i v
    | _ => x
  | some _, .pushed =>
    match x.action with
    | .push o _ v => x.pushed o v
    | _ => x
  | some _, _ => x
  | none, r =>
    match x.action, r with
    | .tryPop, .popped _ => x.checked true
    | .tryPop, _ => x.checked false
    | .tryPush, _ => x.notified
    | _, _ => x

/-- A step without a queue, or a callback that throws. -/
def Goes (x y : Proc V) : Prop :=
  (x.action = .internal ∧ y = x.internal) ∨
    (x.inCallback = true ∧ ∃ standard, y = { x with ctl := .threw (.callback standard) })

/-- A callback needs no queue. -/
theorem action_of_inCallback {x : Proc V} (h : x.inCallback = true) : x.action = .internal := by
  cases hc : x.ctl <;> simp_all [inCallback, action]

theorem Goes.wants_eq_none {x y : Proc V} (h : x.Goes y) : x.wants = none := by
  have ha : x.action = .internal := by
    rcases h with ⟨ha, -⟩ | ⟨hc, -⟩
    · exact ha
    · exact action_of_inCallback hc
  rw [wants, ha]

/-- The processors, as those who work on the queues. -/
def agents (V : Type) : Agents (Proc V) (fun q => QueueOp (Item V q)) (fun q => QueueRes (Item V q)) where
  wants := wants
  resume := resume
  goes := Goes
  alone _ _ h := h.wants_eq_none

end Proc

/-- The capacities of the queues, with this one of the abort channel. -/
def capacities (capacity : Nat) : Option Queue → Nat
  | none => capacity
  | some q => q.capacity

/-- The calls of the queues. -/
def locks (V : Type) (capacity : Nat) (q : Option Queue) :
    QueueOp (Item V q) → Operation (List (Item V q)) (QueueRes (Item V q)) QueueCv :=
  BoundedQueue.operation (capacities capacity q)

/-- The processors of these pipelines. -/
abbrev Members (ps : List (Pipeline V)) := {u : Id // (startProcs ps u).isSome = true}

/-- Pipelines that run on their locks. -/
abbrev LockedState (ps : List (Pipeline V)) :=
  Agents.Locked (Members ps) (Proc V) (fun q => List (Item V q)) (fun q => QueueOp (Item V q)) (fun q =>
    QueueRes (Item V q))

/-- `Run` of these pipelines. -/
def startLocked (ps : List (Pipeline V)) : LockedState ps := .init (fun u => (startProcs ps u.1).get u.2) (fun _ => [])

/-- `l` is reached by steps of the processors, and by wake-ups without a reason. -/
def LockedReaches (capacity : Nat) {ps : List (Pipeline V)} (l : LockedState ps) : Prop :=
  Relation.ReflTransGen (Agents.LockedStep (Proc.agents V) (locks V capacity)) (startLocked ps) l

/-- No processor can take a step, in a call or out of one; who sleeps may still wake up without a reason, and go back to
sleep. -/
def LockedStuck (capacity : Nat) {ps : List (Pipeline V)} (l : LockedState ps) : Prop :=
  ∀ l', ¬Agents.Progress (Proc.agents V) (locks V capacity) l l'

end Tunnel
