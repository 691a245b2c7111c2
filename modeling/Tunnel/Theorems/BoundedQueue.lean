import Tunnel.BoundedQueue
import Tunnel.Lib.Agents

/-!
# BoundedQueue is a bounded FIFO

The rules of monitors at the operations of the queue: in every interleaving the queue is within its capacity, what the
calls return is what they return one behind the other, and nobody sleeps beside work that nobody is on the way to.
-/

namespace Tunnel

open Lib

namespace BoundedQueue

variable {T C : Type} {capacity : Nat}

/-- What a call has made sure of before it acts. -/
def Enabled (capacity : Nat) : QueueOp T → List T → Prop
  | .push _, queue => queue.length < capacity
  | .tryPush _, queue => queue.length < capacity
  | .pop, queue => queue ≠ []
  | .tryPop, queue => queue ≠ []

variable {queue queue' : List T} {r : QueueRes T} {op : QueueOp T}

theorem length_lt (hle : queue.length ≤ capacity) (h : (queue.length == capacity) = false) :
    queue.length < capacity :=
  Nat.lt_of_le_of_ne hle (by simpa using h)

/-- `pop` gives the first element. -/
theorem takeFront_eq (h : takeFront queue = some (r, queue')) :
    ∃ element, queue = element :: queue' ∧ r = .popped element := by
  rcases queue with _ | ⟨element, queue⟩
  · nomatch h
  · cases h
    exact ⟨element, rfl, rfl⟩

/-- The operations keep the queue within its capacity. -/
theorem sound (capacity : Nat) :
    Monitor.Sound (operation (T := T) capacity) (fun queue => queue.length ≤ capacity) (Enabled capacity) where
  pass op queue hle h := by
    cases op with
    | push => exact length_lt hle h
    | tryPush => exact length_lt hle h
    | pop => exact fun hnil => by subst hnil; nomatch h
    | tryPop => exact fun hnil => by subst hnil; nomatch h
  ready op queue k ready hle ho h := by
    cases op with
    | push =>
      cases ho
      have hlt : queue.length < capacity := of_decide_eq_true h
      exact hlt
    | tryPush => nomatch ho
    | pop =>
      cases ho
      rintro rfl
      nomatch h
    | tryPop => nomatch ho
  keep op queue r queue' hle hen h := by
    cases op with
    | push element =>
      cases h
      rw [List.length_append]
      exact Nat.succ_le_of_lt hen
    | tryPush element =>
      cases h
      rw [List.length_append]
      exact Nat.succ_le_of_lt hen
    | pop =>
      obtain ⟨element, rfl, -⟩ := takeFront_eq h
      exact Nat.le_of_succ_le hle
    | tryPop =>
      obtain ⟨element, rfl, -⟩ := takeFront_eq h
      exact Nat.le_of_succ_le hle

/-- The operations have the effects of a queue. -/
theorem effective (capacity : Nat) :
    Monitor.Effective (operation (T := T) capacity) (fun queue => queue.length ≤ capacity)
    (Enabled capacity) (Effect capacity) where
  toSound := sound capacity
  act op queue r queue' hle hen h := by
    cases op with
    | push element =>
      cases h
      exact .push element hen
    | tryPush element =>
      cases h
      exact .tryPush element hen
    | pop =>
      obtain ⟨element, rfl, rfl⟩ := takeFront_eq h
      exact .pop element queue'
    | tryPop =>
      obtain ⟨element, rfl, rfl⟩ := takeFront_eq h
      exact .tryPop element queue'
  refuse op queue r hle h ho := by
    cases op with
    | push => nomatch ho
    | tryPush element =>
      cases ho
      exact .full element (by simpa [operation, tryPush] using h)
    | pop => nomatch ho
    | tryPop =>
      cases ho
      rcases queue with _ | ⟨element, queue⟩
      · exact .empty
      · nomatch h

/-- How many pops there are elements for, and how many pushes there are places for. -/
def room (capacity : Nat) : QueueCv → List T → Nat
  | .empty, queue => queue.length
  | .filled, queue => capacity - queue.length

theorem room_append (queue : List T) (element : T) (k : QueueCv) :
    room capacity k (queue ++ [element]) ≤ room capacity k queue + if k = .empty then 1 else 0 := by
  cases k with
  | empty => simp [room]
  | filled =>
    simp only [room, List.length_append]
    omega

theorem room_tail (queue : List T) (element : T) (k : QueueCv) :
    room capacity k queue ≤ room capacity k (element :: queue) + if k = .filled then 1 else 0 := by
  cases k with
  | empty => simp [room]
  | filled =>
    simp only [room, List.length_cons, if_true]
    omega

/-- Every operation wakes whom it makes room for. -/
theorem roomy (capacity : Nat) :
    Monitor.Roomy (operation (T := T) capacity) (fun queue => queue.length ≤ capacity) (Enabled capacity)
    (room capacity) where
  toSound := sound capacity
  none op queue k ready hle ho h := by
    cases op with
    | push =>
      cases ho
      exact Nat.sub_eq_zero_of_le (Nat.not_lt.1 (of_decide_eq_false h))
    | tryPush => nomatch ho
    | pop =>
      cases ho
      rcases queue with _ | ⟨element, queue⟩
      · rfl
      · nomatch h
    | tryPop => nomatch ho
  own op queue r queue' k hle hen h hk := by
    cases op with
    | push element =>
      cases h
      obtain rfl : QueueCv.filled = k := of_decide_eq_true hk
      have hlt : queue.length < capacity := hen
      simp only [room, List.length_append, List.length_singleton]
      omega
    | tryPush => nomatch hk
    | pop =>
      obtain ⟨element, rfl, -⟩ := takeFront_eq h
      obtain rfl : QueueCv.empty = k := of_decide_eq_true hk
      exact Nat.le_refl _
    | tryPop => nomatch hk
  other op queue r queue' k hle hen h := by
    cases op with
    | push element =>
      cases h
      exact room_append ..
    | tryPush element =>
      cases h
      exact room_append ..
    | pop =>
      obtain ⟨element, rfl, -⟩ := takeFront_eq h
      exact room_tail ..
    | tryPop =>
      obtain ⟨element, rfl, -⟩ := takeFront_eq h
      exact room_tail ..

/-- What a call does when nobody disturbs it. -/
theorem does_of_effect (h : Effect capacity queue op r queue') :
    Monitor.Does (operation capacity op) queue r queue' := by
  cases h with
  | push element h => exact .inl ⟨beq_false_of_ne (Nat.ne_of_lt h), rfl⟩
  | tryPush element h => exact .inl ⟨beq_false_of_ne (Nat.ne_of_lt h), rfl⟩
  | full element h => exact .inr ⟨beq_iff_eq.2 h, rfl, rfl⟩
  | pop element => exact .inl ⟨rfl, rfl⟩
  | tryPop element => exact .inl ⟨rfl, rfl⟩
  | empty => exact .inr ⟨rfl, rfl, rfl⟩

/-- A call that takes effect has room for it. -/
theorem room_pos_of_effect {k : QueueCv} (h : Effect capacity queue op r queue')
    (hk : (operation capacity op).waitsOn k = true) : 0 < room capacity k queue := by
  cases h with
  | push element h =>
    obtain rfl : QueueCv.filled = k := of_decide_eq_true hk
    exact Nat.sub_pos_of_lt h
  | pop element =>
    obtain rfl : QueueCv.empty = k := of_decide_eq_true hk
    exact Nat.succ_pos _
  | _ => cases hk

/-- What a call does is defined, once it has made sure of what it needs. -/
theorem body_of_enabled (h : Enabled capacity op queue) : ((operation capacity op).body queue).isSome = true := by
  cases op with
  | push => rfl
  | tryPush => rfl
  | pop => cases queue with
    | nil => exact absurd rfl h
    | cons => rfl
  | tryPop => cases queue with
    | nil => exact absurd rfl h
    | cons => rfl

/-! ## What happened to the elements -/

/-- The elements that were put into the queue are those that were taken out of it, and then those that are in it. -/
theorem accepted_eq {calls : List (C × (QueueOp T × QueueRes T))}
    (h : Monitor.Replays (Effect capacity) [] calls queue) :
    (accepted calls).map (·.2) = returned calls ++ queue := by
  induction h with
  | nil => rfl
  | snoc _ he ih =>
    simp only [accepted, returned, List.flatMap_append, List.map_append, List.flatMap_singleton] at ih ⊢
    rw [ih]
    cases he <;> simp [acceptedBy, returnedBy]

/-! ## Who sleeps where -/

theorem asleepOn_empty (capacity : Nat) (x : Monitor.Ctl (QueueOp T) (QueueRes T)) :
    x.asleepOn (operation capacity) .empty = sleepsInPop x := by
  rcases x with _ | _ | _ | _ | op | _ | _ | _ | _ <;> first | rfl | cases op <;> rfl

theorem asleepOn_filled (capacity : Nat) (x : Monitor.Ctl (QueueOp T) (QueueRes T)) :
    x.asleepOn (operation capacity) .filled = sleepsInPush x := by
  rcases x with _ | _ | _ | _ | op | _ | _ | _ | _ <;> first | rfl | cases op <;> rfl

theorem wokenOn_empty (capacity : Nat) : Monitor.Ctl.wokenOn (operation capacity) .empty = wokenInPop (T := T) := by
  funext x
  rcases x with _ | _ | _ | _ | _ | op | _ | _ | _ <;> first | rfl | cases op <;> rfl

theorem wokenOn_filled (capacity : Nat) : Monitor.Ctl.wokenOn (operation capacity) .filled = wokenInPush (T := T) := by
  funext x
  rcases x with _ | _ | _ | _ | _ | op | _ | _ | _ <;> first | rfl | cases op <;> rfl

variable [DecidableEq C] {s s' : State C T}

/-- The calls that have returned. -/
theorem done_replays (hs : Monitor.Reaches (operation capacity) (.init []) s) :
    ∃ queue, Monitor.Replays (Effect capacity) [] s.done queue ∧ (s.owner = none → queue = s.shared) := by
  obtain ⟨queue, hreplay, hq⟩ := hs.linearized (effective capacity) (Nat.zero_le _)
  refine ⟨queue, hreplay, fun hfree => ?_⟩
  rw [Monitor.State.settled, hfree] at hq
  exact hq

/-- A call that is refused. -/
theorem refused {c : C} {op' : QueueOp T} (hstep : Monitor.Step (operation capacity) s s') (hc : s.ctl c = .locked op)
    (hc' : s'.ctl c = .leaving op' r) : ((∃ element, op = .tryPush element) ∧ r = .full ∧ s.shared.length = capacity ∨
      op = .tryPop ∧ r = .empty ∧ s.shared = []) ∧ s'.shared = s.shared := by
  obtain ⟨hcheck, ho, hshared⟩ := hstep.refused hc hc'
  refine ⟨?_, hshared⟩
  cases op with
  | push => nomatch ho
  | tryPush element =>
    cases ho
    exact .inl ⟨⟨element, rfl⟩, rfl, eq_of_beq hcheck⟩
  | pop => nomatch ho
  | tryPop =>
    cases ho
    exact .inr ⟨rfl, rfl, List.isEmpty_iff.1 hcheck⟩

end BoundedQueue

section

variable {T C : Type} [DecidableEq C] {capacity : Nat} {s : BoundedQueue.State C T}

open BoundedQueue

/-- In every interleaving: the queue is within its capacity; a call takes the front only of a queue that is not empty;
the calls that have returned did what they do one behind the other, in the order in which they had the lock, each
client's in the order of its calls; what was taken out is the beginning of what was put in; and a try is refused only by
a full or an empty queue, which it leaves as it is. -/
theorem bounded_queue_linearizable (hs : Monitor.Reaches (operation capacity) (.init []) s) :
    s.shared.length ≤ capacity ∧
    (∀ c op, s.ctl c = .acting op → op = .pop ∨ op = .tryPop → s.shared ≠ []) ∧
    (∃ queue, Monitor.Replays (Effect capacity) [] s.done queue ∧ (s.owner = none → queue = s.shared)) ∧
    (∀ c, streamOf s.called c = (streamOf s.done c).map (·.1) ++ (s.ctl c).pending) ∧
    returned s.done <+: (accepted s.done).map (·.2) ∧
    (s.owner = none → (accepted s.done).map (·.2) = returned s.done ++ s.shared) ∧
    ∀ s' c op op' r, Monitor.Step (operation capacity) s s' → s.ctl c = .locked op → s'.ctl c = .leaving op' r →
      ((∃ element, op = .tryPush element) ∧ r = .full ∧ s.shared.length = capacity ∨ op = .tryPop ∧ r = .empty ∧
        s.shared = []) ∧
      s'.shared = s.shared := by
  have hsafe := hs.safe (sound capacity) (Nat.zero_le _)
  obtain ⟨queue, hreplay, hfree⟩ := done_replays hs
  refine ⟨hsafe.inv, ?_, ⟨queue, hreplay, hfree⟩, hs.inOrder, ?_, ?_, fun s' c op op' r => refused⟩
  · intro c op hc hop
    have hen := hsafe.enabled c op hc
    rcases hop with rfl | rfl <;> exact hen
  · rw [accepted_eq hreplay]
    exact List.prefix_append _ _
  · intro hnone
    rw [accepted_eq hreplay, hfree hnone]

/-- While the lock is free: if a `Pop` sleeps, there are at least as many woken `Pop`s as there are elements, and if a
`Push` sleeps, at least as many woken `Push`es as there are places. So nobody sleeps beside an element or a place that
nobody is on the way to. -/
theorem bounded_queue_no_lost_wakeup [Fintype C] (hs : Monitor.Reaches (operation capacity) (.init []) s)
    (hfree : s.owner = none) :
    ((∃ c, sleepsInPop (s.ctl c) = true) → s.shared.length ≤ countIn Finset.univ wokenInPop s.ctl) ∧
    ((∃ c, sleepsInPush (s.ctl c) = true) → capacity - s.shared.length ≤ countIn Finset.univ wokenInPush s.ctl) ∧
    ((∃ c, sleepsInPop (s.ctl c) = true) → s.shared ≠ [] → ∃ c, wokenInPop (s.ctl c) = true) ∧
    ((∃ c, sleepsInPush (s.ctl c) = true) → s.shared.length < capacity → ∃ c, wokenInPush (s.ctl c) = true) := by
  have hpop : (∃ c, sleepsInPop (s.ctl c) = true) → s.shared.length ≤ countIn Finset.univ wokenInPop s.ctl := by
    simp only [← asleepOn_empty capacity, ← wokenOn_empty capacity]
    exact hs.woken (roomy capacity) (Nat.zero_le _) hfree
  have hpush : (∃ c, sleepsInPush (s.ctl c) = true) →
      capacity - s.shared.length ≤ countIn Finset.univ wokenInPush s.ctl := by
    simp only [← asleepOn_filled capacity, ← wokenOn_filled capacity]
    exact hs.woken (roomy capacity) (Nat.zero_le _) hfree
  refine ⟨hpop, hpush, ?_, ?_⟩
  · intro hasleep hne
    obtain ⟨c, -, hc⟩ := countIn_pos.1 (Nat.lt_of_lt_of_le (List.length_pos_iff.2 hne) (hpop hasleep))
    exact ⟨c, hc⟩
  · intro hasleep hlt
    obtain ⟨c, -, hc⟩ := countIn_pos.1 (Nat.lt_of_lt_of_le (Nat.sub_pos_of_lt hlt) (hpush hasleep))
    exact ⟨c, hc⟩

end

/-- Two coroutines sleep in `Pop`, and a third one pushes: one of the two is woken. -/
theorem BoundedQueue.exists_run : ∃ s : State (Fin 3) Nat, Monitor.Reaches (operation 1) (.init []) s ∧ s.owner = none ∧
    s.shared = [7] ∧ s.ctl 1 = .asleep .pop ∧ s.done = [(2, (.push 7, .pushed))] := by
  have hstart : Monitor.Reaches (C := Fin 3) (operation (T := Nat) 1) (.init []) (.init []) := .refl
  have hfirst := (((hstart.tail (.call (c := 0) .pop rfl)).tail (.lock (c := 0) rfl rfl)).tail (.wait (c :=
    0) rfl rfl rfl)).tail
    (.sleep (c := 0) rfl rfl rfl)
  have hsecond := (((hfirst.tail (.call (c := 1) .pop rfl)).tail (.lock (c := 1) rfl rfl)).tail (.wait (c :=
    1) rfl rfl rfl)).tail
    (.sleep (c := 1) rfl rfl rfl)
  have hpush := (((hsecond.tail (.call (c := 2) (.push 7) rfl)).tail (.lock (c := 2) rfl rfl)).tail (.pass (c :=
    2) rfl rfl)).tail
    (.act (c := 2) rfl rfl)
  exact ⟨_, (hpush.tail (.notify (c := 2) (d := 0) rfl rfl rfl)).tail (.leave (c := 2) rfl), rfl, rfl, rfl, rfl⟩

/-- One push. -/
theorem bounded_queue_linearizable_push :
    ∃ s : BoundedQueue.State (Fin 3) Nat, Monitor.Reaches (BoundedQueue.operation 1) (.init []) s ∧ s.owner = none ∧
    s.shared.length ≤ 1 ∧ (BoundedQueue.accepted s.done).map (·.2) = BoundedQueue.returned s.done ++ s.shared := by
  obtain ⟨s, hs, hfree, -⟩ := BoundedQueue.exists_run
  obtain ⟨hle, -, -, -, -, heq, -⟩ := bounded_queue_linearizable hs
  exact ⟨s, hs, hfree, hle, heq hfree⟩

/-- A sleeping `pop` is woken. -/
theorem bounded_queue_no_lost_wakeup_push :
    ∃ s : BoundedQueue.State (Fin 3) Nat, Monitor.Reaches (BoundedQueue.operation 1) (.init []) s ∧ s.owner = none ∧
    s.ctl 1 = .asleep .pop ∧ ∃ c, BoundedQueue.wokenInPop (s.ctl c) = true := by
  obtain ⟨s, hs, hfree, hshared, hctl, -⟩ := BoundedQueue.exists_run
  obtain ⟨-, -, hpop, -⟩ := bounded_queue_no_lost_wakeup hs hfree
  exact ⟨s, hs, hfree, hctl, hpop ⟨1, by rw [hctl]; rfl⟩ (by rw [hshared]; exact List.cons_ne_nil 7 [])⟩

end Tunnel
