import Mathlib.Data.List.Perm.Basic
import Tunnel.Theorems.Executor
import Tunnel.Timer

/-!
# Timers run once, and not before their time

A timer that has fired is a call of `schedule` by the thread of the timers, and that thread calls only before `Stop` has
come to the mutexes of the queues. So what the executor owes to every accepted task it owes to the timers that have
fired (`Timed.Inv`).
-/

namespace Tunnel

open Function

namespace Executor

variable {n m : Nat}

/-! ## What the executor does besides the thread of the timers -/

/-- The step is one of the thread of the timers. -/
def Event.byTimer : Event n m → Bool
  | .call .timer _ _ => true
  | .schedule .timer => true
  | _ => false

/-- The thread of the timers may be in `schedule`. -/
def Stopper.beforeLocks : Stopper n → Bool
  | .idle => true
  | .stopTimer => true
  | _ => false

/-- Before its first lock `Stop` holds none. -/
theorem Stopper.acquired_of_beforeLocks {x : Stopper n} (h : x.beforeLocks = true) (j : Nat) :
    x.acquired j = false := by
  cases x with
  | idle => rfl
  | stopTimer => rfl
  | _ => cases h

/-- A step of anybody else leaves the call of the thread of the timers alone, and accepts no task of its. -/
structure Spares (x x' : State n m) : Prop where
  calls : x'.calls .timer = x.calls .timer
  issued : x.issued ≤ x'.issued
  kept : ∀ func ∈ x.accepted, func ∈ x'.accepted
  new : ∀ func ∈ x'.accepted, func.caller = .timer → func ∈ x.accepted

variable {x x' : State n m} {e : Event n m}

/-- Nothing of the timers moved. -/
theorem Spares.same (hcalls : x'.calls = x.calls) (hissued : x'.issued = x.issued)
    (haccepted : x'.accepted = x.accepted) :
    Spares x x' := by
  refine ⟨by rw [hcalls], Nat.le_of_eq hissued.symm, ?_, ?_⟩
  · intro func hfunc
    rwa [haccepted]
  · intro func hfunc _
    rwa [haccepted] at hfunc

theorem State.accepted_notifyOne (s : State n m) (w : Fin n) :
    (s.notifyOne w).accepted = s.accepted ∧ (s.notifyOne w).issued = s.issued := by
  unfold State.notifyOne
  split <;> exact ⟨rfl, rfl⟩

/-- Every step of others spares the timers. -/
theorem Moves.spares (h : Moves x e x') (he : e.byTimer = false) : Spares x x' := by
  -- who calls is not the thread of the timers
  have hset : ∀ {c : Caller n m} (call : Call n) (y : State n m), c ≠ .timer → y.calls = x.calls →
      (y.setCall c call).calls .timer = x.calls .timer := by
    intro c call y hc hy
    show update y.calls c call .timer = _
    rw [update_of_ne hc.symm, hy]
  have hcaller : ∀ {c : Caller n m}, e = .schedule c → c ≠ .timer := by
    rintro c rfl rfl
    cases he
  cases h with
  | @call c current hc rn random =>
    have hne : c ≠ .timer := by
      rintro rfl
      cases he
    exact ⟨hset _ x hne rfl, Nat.le_succ _, fun _ h => h, fun _ h _ => h⟩
  | acquire hc hfree => exact ⟨hset _ _ (hcaller rfl) rfl, Nat.le_refl _, fun _ h => h, fun _ h _ => h⟩
  | @push c id index i b hc =>
    refine ⟨hset _ (x.setQueue _ _) (hcaller rfl) rfl, Nat.le_refl _, ?_, ?_⟩
    · intro func hfunc
      exact List.mem_append_left _ hfunc
    · intro func hfunc htimer
      rcases List.mem_append.1 hfunc with hold | hnew
      · exact hold
      · rw [List.mem_singleton.1 hnew] at htimer
        exact absurd htimer (hcaller rfl)
  | full hc => exact ⟨hset _ _ (hcaller rfl) rfl, Nat.le_refl _, fun _ h => h, fun _ h _ => h⟩
  | unlock hc => exact ⟨hset _ _ (hcaller rfl) rfl, Nat.le_refl _, fun _ h => h, fun _ h _ => h⟩
  | @notify c j hc =>
    obtain ⟨haccepted, hissued⟩ := x.accepted_notifyOne j
    refine ⟨hset _ _ (hcaller rfl) (x.calls_notifyOne j), Nat.le_of_eq hissued.symm, ?_, ?_⟩
    · intro func hfunc
      show func ∈ (x.notifyOne j).accepted
      rwa [haccepted]
    · intro func hfunc _
      change func ∈ (x.notifyOne j).accepted at hfunc
      rwa [haccepted] at hfunc
  | @wakeUpNext w func hw =>
    obtain ⟨haccepted, hissued⟩ := x.accepted_notifyOne (slot w 1)
    exact .same (x.calls_notifyOne _) hissued haccepted
  | @stopNotify w hs =>
    obtain ⟨haccepted, hissued⟩ := x.accepted_notifyOne w
    exact .same (x.calls_notifyOne _) hissued haccepted
  | _ => exact .same rfl rfl rfl

/-- `Stop` comes to the mutexes only from `timer_manager_.Stop()`. -/
theorem Moves.beforeLocks (h : Moves x e x') (hx : x.stopper.beforeLocks = true)
    (hready : ∀ i, e = .stopping → x.stopper = .stopTimer → x'.stopper ≠ .lock i) :
    x'.stopper.beforeLocks = true := by
  have hnotify : ∀ w, (x.notifyOne w).stopper.beforeLocks = true := by
    intro w
    rw [x.stopper_notifyOne w]
    exact hx
  cases h with
  | notify hc => exact hnotify _
  | wakeUpNext hw => exact hnotify _
  | stop hs => rfl
  | stopTimer hs => exact absurd rfl (hready 0 rfl hs)
  | stopLock hs => rw [hs] at hx; cases hx
  | setStop hs => rw [hs] at hx; cases hx
  | stopUnlock hs => rw [hs] at hx; cases hx
  | stopNotify hs => rw [hs] at hx; cases hx
  | unlocked hs => rw [hs] at hx; cases hx
  | join hs => rw [hs] at hx; cases hx
  | joined hs => rw [hs] at hx; cases hx
  | _ => exact hx

/-- `Stop` is called once. -/
theorem Moves.stopper_ne_idle (h : Moves x e x') (hx : x.stopper ≠ .idle) : x'.stopper ≠ .idle := by
  have hnotify : ∀ w, (x.notifyOne w).stopper ≠ .idle := by
    intro w
    rw [x.stopper_notifyOne w]
    exact hx
  cases h with
  | notify hc => exact hnotify _
  | wakeUpNext hw => exact hnotify _
  | stop hs => rintro ⟨⟩
  | stopTimer hs => rintro ⟨⟩
  | stopLock hs => rintro ⟨⟩
  | setStop hs => rintro ⟨⟩
  | stopUnlock hs => rintro ⟨⟩
  | stopNotify hs => rintro ⟨⟩
  | unlocked hs => rintro ⟨⟩
  | join hs => rintro ⟨⟩
  | joined hs => rintro ⟨⟩
  | _ => exact hx

namespace Timed

variable {s s' : Timed n m}

/-- The timers that have fired are calls of the thread of the timers: one is on its way, the others were accepted,
before `Stop`. -/
structure Inv (s : Timed n m) : Prop where
  executor : s.executor.Inv
  firing : s.ended = false → (s.firing = true ↔ s.executor.calls .timer ≠ .idle)
  before : s.firing = true → s.executor.stopper.beforeLocks = true
  called : s.stopped = true → s.executor.stopper ≠ .idle
  early : ∀ id index i b, s.executor.calls .timer = .push id index i b → b = true
  reported : s.ended = false → ∀ f ∈ s.fired,
    f.call ∈ (s.executor.calls .timer).carried ∨ ({ id := f.call, caller := .timer, beforeStop := true } : Task n m) ∈
      s.executor.accepted
  due : ∀ f ∈ s.fired, f.timer.due ≤ s.now
  perm : (s.fired.map Fired.timer ++ s.timers).Perm s.pushed
  ids : s.pushed.map Timer.id = List.range s.pushed.length
  full : s.ended = true → ∃ j, capacity ≤ (s.executor.queues j).length

namespace Inv

/-- It holds at the start. -/
theorem start (n m : Nat) : (Timed.start n m).Inv where
  executor := .start n m
  firing := by
    intro _
    exact ⟨by rintro ⟨⟩, fun h => absurd rfl h⟩
  before := by rintro ⟨⟩
  called := by rintro ⟨⟩
  early := by
    intro id index i b h
    cases h
  reported := by
    intro _ f hf
    cases hf
  due := by
    intro f hf
    cases hf
  perm := .refl _
  ids := rfl
  full := by rintro ⟨⟩

variable {x : State n m} {f : Fired} {t : Timer}

/-- A thread of the executor takes a step. -/
theorem others (hi : s.Inv) (hended : s.ended = false) {e : Event n m} (hready : s.ready e = true)
    (hx : s.executor.step e = some x) :
    Inv { s with executor := x } := by
  have hm := State.step_moves hx
  have he : e.byTimer = false := by
    cases e with
    | call c rn random => cases c <;> first | rfl | cases hready
    | schedule c => cases c <;> first | rfl | cases hready
    | _ => rfl
  have hspares := hm.spares he
  have hcalls := hspares.calls
  refine ⟨hi.executor.step hm, ?_, ?_, fun hs => hm.stopper_ne_idle (hi.called hs), ?_, ?_, hi.due, hi.perm, hi.ids, ?_⟩
  · intro _
    show s.firing = true ↔ x.calls .timer ≠ .idle
    rw [hcalls]
    exact hi.firing hended
  · intro hfiring
    refine hm.beforeLocks (hi.before hfiring) ?_
    rintro i rfl hs
    -- `timer_manager_.Stop()` does not return while a handler runs
    have hfiring' : s.firing = true := hfiring
    simp [ready, hs, hfiring'] at hready
  · intro id index i b h
    change x.calls .timer = _ at h
    rw [hcalls] at h
    exact hi.early id index i b h
  · intro _ f hf
    show f.call ∈ (x.calls .timer).carried ∨ _ ∈ x.accepted
    rw [hcalls]
    exact (hi.reported hended f hf).imp id (hspares.kept _)
  · intro h
    change s.ended = true at h
    rw [hended] at h
    cases h

/-- A timer is pushed. -/
theorem pushTimer (hi : s.Inv) (duration : Int) : (s.pushTimer duration).Inv := by
  refine ⟨hi.executor, hi.firing, hi.before, hi.called, hi.early, hi.reported, hi.due, ?_, ?_, hi.full⟩
  · show (s.fired.map Fired.timer ++ (s.timers ++ [_])).Perm (s.pushed ++ [_])
    rw [← List.append_assoc]
    exact hi.perm.append_right _
  · show (s.pushed ++ [_]).map Timer.id = List.range (s.pushed ++ [_]).length
    rw [List.map_append, hi.ids, List.length_append, List.length_singleton, List.range_succ]
    rfl

/-- Time passes. -/
theorem elapse (hi : s.Inv) : Inv { s with now := s.now + 1 } :=
  ⟨hi.executor, hi.firing, hi.before, hi.called, hi.early, hi.reported, fun f hf => Nat.le_succ_of_le (hi.due f hf),
    hi.perm, hi.ids, hi.full⟩

/-- The call of a handler begins. -/
theorem fire (hi : s.Inv) (hended : s.ended = false) {i : Nat} {rn : Fin 4} {random : Fin n}
    (h : s.fire i rn random = some s') : s'.Inv := by
  unfold Timed.fire at h
  split at h
  · cases h
  · rename_i hidle
    rw [Bool.not_eq_true, Bool.or_eq_false_iff] at hidle
    split at h
    · cases h
    · rename_i t ht
      split at h
      · rename_i hdue
        obtain ⟨x, hx, rfl⟩ := Option.map_eq_some_iff.1 h
        have hm := State.step_moves hx
        obtain ⟨current, hcurrent, rfl⟩ :=
          Option.map_eq_some_iff.1 (show s.executor.call .timer rn random = some x from hx)
        have hnone : s.executor.calls .timer = .idle := State.idle_of_mayCall hcurrent
        have hbefore : s.executor.stopper.beforeLocks = true := by
          simp only [State.mayCall, hnone, ne_eq, not_true_eq_false, if_false] at hcurrent
          split at hcurrent
          · rename_i hs
            rcases hs with hs | hs <;> rw [hs] <;> rfl
          · cases hcurrent
        have hcall : ∀ call : Call n, update s.executor.calls .timer call .timer = call := fun _ => update_self ..
        refine ⟨hi.executor.step hm, ?_, fun _ => hbefore, hi.called, ?_, ?_, ?_, ?_, hi.ids, ?_⟩
        · intro _
          show true = true ↔ update s.executor.calls .timer _ .timer ≠ .idle
          rw [hcall]
          exact ⟨fun _ => (by rintro ⟨⟩), fun _ => rfl⟩
        · intro id index i b hpush
          change update s.executor.calls .timer _ .timer = _ at hpush
          rw [hcall] at hpush
          cases hpush
        · intro _ f hf
          show f.call ∈ (update s.executor.calls .timer _ .timer).carried ∨ _ ∈ s.executor.accepted
          rw [hcall]
          rcases List.mem_append.1 hf with hold | hnew
          · have hreported := hi.reported hended f hold
            rw [hnone] at hreported
            exact .inr (hreported.resolve_left (by rintro ⟨⟩))
          · rw [List.mem_singleton.1 hnew]
            exact .inl (List.mem_singleton_self _)
        · intro f hf
          rcases List.mem_append.1 hf with hold | hnew
          · exact hi.due f hold
          · rw [List.mem_singleton.1 hnew]
            exact hdue
        · obtain ⟨hlt, hget⟩ := List.getElem?_eq_some_iff.1 ht
          have herase := List.getElem_cons_eraseIdx_perm hlt
          rw [hget] at herase
          show ((s.fired ++ [_]).map Fired.timer ++ s.timers.eraseIdx i).Perm s.pushed
          rw [List.map_append, List.append_assoc]
          exact ((herase.append_left _).trans hi.perm)
        · intro h
          change s.ended = true at h
          rw [hended] at h
          cases h
      · cases h

/-- The call of a timer goes on. -/
theorem handled_going (hcall : x.calls .timer ≠ .idle) : s.handled x = { s with executor := x } := by
  unfold handled
  cases hx : x.calls .timer with
  | idle => exact absurd hx hcall
  | _ => cases s.executor.calls .timer <;> rfl

section

variable (hi : s.Inv)
include hi

/-- The call of a handler goes on, and does not return. -/
theorem going (hended : s.ended = false) (hfiring : s.firing = true) (hinv : x.Inv)
    (hcall : x.calls .timer ≠ .idle) (hstopper : x.stopper = s.executor.stopper)
    (hearly : ∀ id index i b, x.calls .timer = .push id index i b → b = true)
    (hkept : ∀ func ∈ s.executor.accepted, func ∈ x.accepted)
    (hcarried : ∀ id ∈ (s.executor.calls .timer).carried, id ∈ (x.calls .timer).carried ∨
      ({ id := id, caller := .timer, beforeStop := true } : Task n m) ∈ x.accepted) :
    (s.handled x).Inv := by
  rw [handled_going hcall]
  refine ⟨hinv, ?_, ?_, ?_, hearly, ?_, hi.due, hi.perm, hi.ids, ?_⟩
  · intro _
    exact ⟨fun _ => hcall, fun _ => hfiring⟩
  · intro _
    show x.stopper.beforeLocks = true
    rw [hstopper]
    exact hi.before hfiring
  · intro hs
    show x.stopper ≠ .idle
    rw [hstopper]
    exact hi.called hs
  · intro _ f hf
    rcases hi.reported hended f hf with hold | hold
    · exact hcarried f.call hold
    · exact .inr (hkept _ hold)
  · intro h
    change s.ended = true at h
    rw [hended] at h
    cases h

/-- The call of a handler goes on. -/
theorem handler (hended : s.ended = false) (hfiring : s.firing = true)
    (hx : s.executor.step (.schedule .timer) = some x) : (s.handled x).Inv := by
  have hinv := hi.executor.step (State.step_moves hx)
  have hself : ∀ (y : State n m) call, (y.setCall .timer call).calls .timer = call :=
    fun y call => y.calls_setCall .timer call
  have hacquired : ∀ j, s.executor.stopper.acquired j = false := Stopper.acquired_of_beforeLocks (hi.before hfiring)
  cases hc : s.executor.calls .timer with
  | idle => exact absurd hc ((hi.firing hended).1 hfiring)
  | lock id index i =>
    simp only [State.step, State.schedule, hc] at hx
    split at hx
    · cases hx
      refine hi.going hended hfiring hinv (by rw [hself]; rintro ⟨⟩) rfl ?_ (fun _ h => h) ?_
      · intro id' index' i' b h
        rw [hself] at h
        cases h
        rw [hacquired]
        rfl
      · intro id' hid
        rw [hc] at hid
        rw [hself]
        exact .inl hid
    · cases hx
  | push id index i b =>
    obtain rfl := hi.early id index i b hc
    simp only [State.step, State.schedule, hc] at hx
    split at hx
    · cases hx
      refine hi.going hended hfiring hinv ?_ rfl ?_ (fun _ h => List.mem_append_left _ h) ?_
      · show update s.executor.calls .timer (.unlock (slot index i)) .timer ≠ _
        rw [update_self]
        rintro ⟨⟩
      · intro id' index' i' b h
        change update s.executor.calls .timer (.unlock (slot index i)) .timer = _ at h
        rw [update_self] at h
        cases h
      · intro id' hid
        rw [hc] at hid
        rw [List.mem_singleton.1 hid]
        exact .inr (List.mem_append_right _ (List.mem_singleton_self _))
    · rename_i hfull
      cases hx
      by_cases hlast : i + 1 < n
      · simp only [hlast, if_true] at hinv ⊢
        refine hi.going hended hfiring hinv (by rw [hself]; rintro ⟨⟩) rfl ?_ (fun _ h => h) ?_
        · intro id' index' i' b h
          rw [hself] at h
          cases h
        · intro id' hid
          rw [hc] at hid
          rw [hself]
          exact .inl hid
      · simp only [hlast, if_false] at hinv ⊢
        have heq : s.handled ((s.executor.setMut (slot index i) none).setCall .timer .idle) =
            { s with executor := (s.executor.setMut (slot index i) none).setCall .timer .idle, ended := true } := by
          simp only [handled, hc, hself]
        rw [heq]
        -- no queue had room, the last one neither
        refine ⟨hinv,
          by rintro ⟨⟩, fun _ => hi.before hfiring, hi.called, ?_, by rintro ⟨⟩, hi.due, hi.perm, hi.ids, ?_⟩
        · intro id' index' i' b h
          change update s.executor.calls .timer .idle .timer = _ at h
          rw [update_self] at h
          cases h
        · intro _
          exact ⟨slot index i, Nat.le_of_not_lt hfull⟩
  | unlock j =>
    simp only [State.step, State.schedule, hc] at hx
    cases hx
    refine hi.going hended hfiring hinv (by rw [hself]; rintro ⟨⟩) rfl ?_ (fun _ h => h) ?_
    · intro id' index' i' b h
      rw [hself] at h
      cases h
    · intro id' hid
      rw [hc] at hid
      cases hid
  | notify j =>
    simp only [State.step, State.schedule, hc] at hx
    cases hx
    have heq : s.handled ((s.executor.notifyOne j).setCall .timer .idle) =
        { s with executor := (s.executor.notifyOne j).setCall .timer .idle, firing := false } := by
      simp only [handled, hc, hself]
    rw [heq]
    refine ⟨hinv, ?_, by rintro ⟨⟩, ?_, ?_, ?_, hi.due, hi.perm, hi.ids, ?_⟩
    · intro _
      show false = true ↔ ((s.executor.notifyOne j).setCall .timer .idle).calls .timer ≠ .idle
      rw [hself]
      exact ⟨by rintro ⟨⟩, fun h => absurd rfl h⟩
    · intro hs
      show (s.executor.notifyOne j).stopper ≠ .idle
      rw [s.executor.stopper_notifyOne j]
      exact hi.called hs
    · intro id' index' i' b h
      change ((s.executor.notifyOne j).setCall .timer .idle).calls .timer = _ at h
      rw [hself] at h
      cases h
    · intro _ f hf
      have hreported := hi.reported hended f hf
      rw [hc] at hreported
      refine .inr ?_
      show _ ∈ (s.executor.notifyOne j).accepted
      rw [(s.executor.accepted_notifyOne j).1]
      exact hreported.resolve_left (by rintro ⟨⟩)
    · intro h
      change s.ended = true at h
      rw [hended] at h
      cases h

/-- Every step keeps it. -/
theorem step {e : TimedEvent n m} (h : s.step e = some s') : s'.Inv := by
  unfold Timed.step at h
  split at h
  · cases h
  · rename_i hended
    rw [Bool.not_eq_true] at hended
    cases e with
    | executor e =>
      dsimp only at h
      split at h
      · rename_i hready
        obtain ⟨x, hx, rfl⟩ := Option.map_eq_some_iff.1 h
        exact hi.others hended hready hx
      · cases h
    | pushTimer duration =>
      cases h
      exact hi.pushTimer duration
    | elapse =>
      cases h
      exact hi.elapse
    | stopContext =>
      dsimp only at h
      split at h
      · rename_i hs
        cases h
        refine ⟨hi.executor, hi.firing, hi.before, ?_, hi.early, hi.reported, hi.due, hi.perm, hi.ids, hi.full⟩
        intro _
        show s.executor.stopper ≠ .idle
        rw [hs.1]
        rintro ⟨⟩
      · cases h
    | fire i rn random => exact hi.fire hended h
    | handler =>
      dsimp only at h
      split at h
      · rename_i hfiring
        obtain ⟨x, hx, rfl⟩ := Option.map_eq_some_iff.1 h
        exact hi.handler hended hfiring hx
      · cases h

/-- So does a run. -/
theorem runAll {es : List (TimedEvent n m)} (h : s.runAll es = some s') : s'.Inv := by
  induction es generalizing s with
  | nil =>
    cases h
    exact hi
  | cons e rest ih =>
    obtain ⟨s₁, he, hrest⟩ := Option.bind_eq_some_iff.1 h
    exact ih (hi.step he) hrest

/-! ## Calls of the functions -/

/-- No timer is there twice. -/
theorem nodup_ids : (s.fired.map (fun f => f.timer.id) ++ s.timers.map Timer.id).Nodup := by
  have hperm := hi.perm.map Timer.id
  rw [hi.ids, List.map_append, List.map_map] at hperm
  exact hperm.nodup_iff.2 List.nodup_range

/-- A fired timer runs as often as its task. -/
theorem runs_fired (hf : f ∈ s.fired) :
    s.runs f.timer.id = (s.executor.invoked.map Task.id).count f.call := by
  have hinj := List.inj_on_of_nodup_map hi.nodup_ids.of_append_left
  rw [runs, List.count, List.countP_map]
  refine List.countP_congr ?_
  intro func _
  simp only [List.any_eq_true, Bool.and_eq_true, beq_iff_eq, comp_apply]
  constructor
  · rintro ⟨f', hf', hid, hcall⟩
    obtain rfl := hinj hf' hf hid
    exact hcall.symm
  · intro hcall
    exact ⟨f, hf, rfl, hcall.symm⟩

omit hi in
/-- Who has not fired has not run. -/
theorem runs_eq_zero {id : Nat} (h : ∀ f ∈ s.fired, f.timer.id ≠ id) : s.runs id = 0 := by
  rw [runs, List.countP_eq_zero]
  intro func _ hany
  obtain ⟨f, hf, heq⟩ := List.any_eq_true.1 hany
  rw [Bool.and_eq_true, beq_iff_eq] at heq
  exact h f hf heq.1

/-- No timer runs twice. -/
theorem runs_le (id : Nat) : s.runs id ≤ 1 := by
  by_cases h : ∃ f ∈ s.fired, f.timer.id = id
  · obtain ⟨f, hf, rfl⟩ := h
    rw [hi.runs_fired hf]
    exact List.nodup_iff_count_le_one.1 hi.executor.nodup_invoked f.call
  · rw [runs_eq_zero (fun f hf heq => h ⟨f, hf, heq⟩)]
    exact Nat.zero_le 1

/-- The function of a timer that has fired has been called, when its task has been invoked. -/
theorem runs_eq_one (hf : f ∈ s.fired)
    (h : s.executor.invoked.count ({ id := f.call, caller := .timer, beforeStop := true } : Task n m) = 1) :
    s.runs f.timer.id = 1 := by
  refine Nat.le_antisymm (hi.runs_le _) ?_
  have hmem : ({ id := f.call, caller := .timer, beforeStop := true } : Task n m) ∈ s.executor.invoked := by
    rw [← List.count_pos_iff, h]
    exact Nat.zero_lt_one
  rw [hi.runs_fired hf]
  exact List.count_pos_iff.2 (List.mem_map.2 ⟨_, hmem, rfl⟩)

/-- A timer waits or has fired. -/
theorem waits_or_fired (ht : t ∈ s.pushed) : t ∈ s.timers ∨ ∃ f ∈ s.fired, f.timer = t := by
  rcases List.mem_append.1 (hi.perm.mem_iff.2 ht) with hfired | hwaits
  · exact .inr (List.mem_map.1 hfired)
  · exact .inl hwaits

/-- A fired timer whose call returned was accepted. -/
theorem accepted_of_idle (hended : s.ended = false) (hidle : s.executor.calls .timer = .idle)
    (hf : f ∈ s.fired) :
    ({ id := f.call, caller := .timer, beforeStop := true } : Task n m) ∈ s.executor.accepted := by
  have hreported := hi.reported hended f hf
  rw [hidle] at hreported
  exact hreported.resolve_left (by rintro ⟨⟩)

/-- `Stop` has returned. -/
theorem returned (hended : s.ended = false) (hs : s.executor.stopper = .returned) (hf : f ∈ s.fired) :
    s.runs f.timer.id = 1 := by
  have hidle : s.executor.calls .timer = .idle := by
    by_contra hne
    have hbefore := hi.before ((hi.firing hended).2 hne)
    rw [hs] at hbefore
    cases hbefore
  exact hi.runs_eq_one hf (hi.executor.done hs (hi.accepted_of_idle hended hidle hf) (.inl rfl))

end

end Inv

/-! ## No standstill -/

/-- No thread can go on. -/
def Standstill (s : Timed n m) : Prop := ∀ e : TimedEvent n m, e.internal = true → s.step e = none

/-- The executor stands still, too. -/
theorem Standstill.executor (h : s.Standstill) (hi : s.Inv) (hended : s.ended = false) : s.executor.Standstill := by
  have hready : ∀ e : Event n m, e.internal = true → s.ready e = true → s.executor.step e = none := by
    intro e he hr
    have hnone := h (.executor e) he
    simp only [step, hended, Bool.false_eq_true, if_false, hr, if_true] at hnone
    exact Option.map_eq_none_iff.1 hnone
  intro e he
  cases e with
  | schedule c =>
    cases c with
    | timer =>
      by_cases hfiring : s.firing = true
      · have hnone := h .handler rfl
        simp only [step, hended, Bool.false_eq_true, if_false, hfiring, if_true] at hnone
        exact Option.map_eq_none_iff.1 hnone
      · have hidle : s.executor.calls .timer = .idle := by
          by_contra hne
          exact hfiring ((hi.firing hended).2 hne)
        simp only [State.step, State.schedule, hidle]
    | worker w => exact hready _ he rfl
    | outer c => exact hready _ he rfl
  | stopping =>
    by_cases hs : s.executor.stopper = .stopTimer
    · by_cases hfiring : s.firing = true
      · -- `timer_manager_.Stop()` waits for the handler
        have hcall := (hi.firing hended).1 hfiring
        simp only [State.step, State.stopping, hs, hcall, if_false]
      · refine hready _ he ?_
        have hstopped : s.stopped = true := by
          have hnone := h .stopContext rfl
          by_contra hne
          simp [step, hended, hs, hne] at hnone
        simp [ready, hs, hstopped, hfiring]
    · refine hready _ he ?_
      simp [ready, hs]
  | call c rn random => cases he
  | wake w => cases he
  | stop => cases he
  | work w => exact hready _ he rfl
  | finish w => exact hready _ he rfl

/-- Where no thread can go on and `Stop` was not called, the functions of all timers that are due have been called. -/
theorem Standstill.due (h : s.Standstill) (hi : s.Inv) (hended : s.ended = false) (hn : 0 < n)
    (hs : s.executor.stopper = .idle) {t : Timer} (ht : t ∈ s.pushed) (hdue : t.due ≤ s.now) : s.runs t.id = 1 := by
  have hstand := h.executor hi hended
  have hidle := hstand.calls hi.executor .timer
  obtain hwaits | ⟨f, hf, rfl⟩ := hi.waits_or_fired ht
  · -- its handler could be called
    obtain ⟨i, hi', hget⟩ := List.mem_iff_getElem.1 hwaits
    have hfiring : s.firing = false := by
      rw [← Bool.not_eq_true]
      intro hfiring
      exact (hi.firing hended).1 hfiring hidle
    have hstopped : s.stopped = false := by
      rw [← Bool.not_eq_true]
      intro hstopped
      exact hi.called hstopped hs
    have hnone := h (.fire i ⟨0, Nat.zero_lt_succ 3⟩ ⟨0, hn⟩) rfl
    have hget' : s.timers[i]? = some t := List.getElem?_eq_some_iff.2 ⟨hi', hget⟩
    simp [step, hended, Timed.fire, hstopped, hfiring, hget', hdue, State.step, State.call, State.mayCall, hidle,
      hs] at hnone
  · exact hi.runs_eq_one hf (hstand.done hi.executor (hi.accepted_of_idle hended hidle hf) (.inl rfl))

/-! ## After `ctx_.stop()` -/

end Timed

end Executor

end Tunnel
