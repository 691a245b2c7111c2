import Tunnel.Lemmas.Executor
import Tunnel.Lib.Count

/-!
# What becomes of a task

No wake-up is lost (`State.Attended`): while a task lies in the queue of a worker that waits, somebody is about to
notify it. No task is left behind (`State.Watched`): as long as a task lies in a queue, the workers that answer for it
have not yet looked at that queue in vain for the last time. And every accepted task is in a queue, with a worker or
invoked, once (`State.Books`).
-/

namespace Tunnel

namespace Executor

open Lib Function

variable {n m : Nat} {s s' : State n m} {e : Event n m} {w : Fin n} {c : Caller n m}

theorem slot_zero (w : Fin n) : slot w 0 = w := Fin.ext (Nat.mod_eq_of_lt w.isLt)

/-- A scan of `n` queues reaches every one. -/
theorem slot_surjective (w j : Fin n) : ∃ i < n, slot w i = j := by
  by_cases hwj : w.val ≤ j.val
  · refine ⟨j - w, by omega, Fin.ext ?_⟩
    show (w + (j - w) : Nat) % n = j
    rw [Nat.add_sub_of_le hwj, Nat.mod_eq_of_lt j.isLt]
  · refine ⟨j + n - w, by omega, Fin.ext ?_⟩
    show (w + (j + n - w) : Nat) % n = j
    rw [Nat.add_sub_of_le (by omega), Nat.add_mod_right, Nat.mod_eq_of_lt j.isLt]

/-! ## No wake-up is lost -/

/-- `Stop` is about to notify the worker. -/
def Stopper.willNotify : Stopper n → Nat → Bool
  | .unlock i, j => i ≤ j
  | .notify i, j => i ≤ j
  | _, _ => false

namespace State

/-- The call is about to notify the worker. -/
def Alerts (s : State n m) (c : Caller n m) (w : Fin n) : Prop := s.calls c = .unlock w ∨ s.calls c = .notify w

/-- A worker that waits has seen its queue empty and `stop_` not set, or is about to be notified. -/
structure Attended (s : State n m) (w : Fin n) : Prop where
  missed : ∀ i, (s.workers w).ctl = .predicateTryPop (i + 1) → s.queues w = []
  task : (s.workers w).ctl = .wait → s.queues w ≠ [] → ∃ c, s.Alerts c w
  stop : (s.workers w).ctl = .wait → s.stop = true → s.stopper.willNotify w = true

namespace Attended

/-- The worker is at a place where nothing is asked. -/
theorem of_ctl {x : WorkerCtl n m} (hx : (s.workers w).ctl = x) (hwait : x ≠ .wait)
    (hmiss : ∀ i, x ≠ .predicateTryPop (i + 1)) :
    s.Attended w where
  missed i hi := absurd (hx.symm.trans hi) (hmiss i)
  task hw := absurd (hx.symm.trans hw) hwait
  stop hw := absurd (hx.symm.trans hw) hwait

/-- Others move: the worker stays where it is, its queue gets nothing, and who was about to notify it still is. -/
theorem mono (ha : s.Attended w) (hw : (s'.workers w).ctl = (s.workers w).ctl) (hq : s.queues w = [] → s'.queues w = [])
    (hc : (s.workers w).ctl = .wait → ∀ c, s.Alerts c w → ∃ c, s'.Alerts c w)
    (hs : (s.workers w).ctl = .wait → s'.stop = true → s.stop = true ∧
      (s.stopper.willNotify w = true → s'.stopper.willNotify w = true)) :
    s'.Attended w where
  missed i hi := hq (ha.missed i (hw.symm.trans hi))
  task hwait hne := by
    rw [hw] at hwait
    obtain ⟨c, hc'⟩ := ha.task hwait (fun h => hne (hq h))
    exact hc hwait c hc'
  stop hwait hstop := by
    rw [hw] at hwait
    obtain ⟨hs', hwill⟩ := hs hwait hstop
    exact hwill (ha.stop hwait hs')

/-- A worker moves. -/
theorem worker (ha : ∀ v, s.Attended v) {x : Worker n m} (hworkers : s'.workers = update s.workers w x)
    (hq : ∀ v, s.queues v = [] → s'.queues v = []) (hcalls : s'.calls = s.calls) (hstop : s'.stop = s.stop)
    (hstopper : s'.stopper = s.stopper) (hw : s'.Attended w) : ∀ v, s'.Attended v := by
  intro v
  by_cases hv : v = w
  · subst hv
    exact hw
  · refine (ha v).mono (by rw [hworkers, update_of_ne hv]) (hq v) (fun _ d hd => ⟨d, ?_⟩) (fun _ h => ⟨hstop ▸ h, ?_⟩)
    · unfold Alerts
      rw [hcalls]
      exact hd
    · rw [hstopper]
      exact id

/-- A worker moves to a place where nothing is asked. -/
theorem workerTo (ha : ∀ v, s.Attended v) {x : Worker n m} (hworkers : s'.workers = update s.workers w x)
    (hq : ∀ v, s.queues v = [] → s'.queues v = []) (hcalls : s'.calls = s.calls) (hstop : s'.stop = s.stop)
    (hstopper : s'.stopper = s.stopper) (hwait : x.ctl ≠ .wait) (hmiss : ∀ i, x.ctl ≠ .predicateTryPop (i + 1)) :
    ∀ v, s'.Attended v :=
  worker ha hworkers hq hcalls hstop hstopper (of_ctl (by rw [hworkers, update_self]) hwait hmiss)

/-- A call moves that was not about to notify the worker. -/
theorem setCall (ha : s.Attended w) (hc : ¬s.Alerts c w) (x : Call n) : (s.setCall c x).Attended w := by
  refine ha.mono rfl id (fun _ d hd => ⟨d, ?_⟩) (fun _ h => ⟨h, id⟩)
  unfold Alerts
  rw [calls_setCall_of_ne s x (by rintro rfl; exact hc hd)]
  exact hd

/-- To wake a worker leaves none alone. -/
theorem notifyOne (ha : ∀ v, s.Attended v) (w : Fin n) : ∀ v, (s.notifyOne w).Attended v := by
  rcases s.notifyOne_eq w with ⟨heq, -⟩ | ⟨heq, -⟩
  · rw [heq]
    exact ha
  · rw [heq]
    exact workerTo ha rfl (fun _ => id) rfl rfl rfl (by nofun) (by nofun)

/-- In the predicate, the own queue is the first one. -/
theorem queue_eq_nil (ha : s.Attended w) {i : Nat} (hw : (s.workers w).ctl = .predicateTryPop i)
    (hq : s.queues (slot w i) = []) :
    s.queues w = [] := by
  cases i with
  | zero => rwa [slot_zero] at hq
  | succ i => exact ha.missed i hw

/-- A task is pushed: the worker whose queue gets it is not in the predicate, since the call holds its mutex, and the
call is about to notify it. -/
theorem push (ha : ∀ v, s.Attended v) (hl : s.Locks) {k : Nat} {index : Fin n} {i : Nat} {beforeStop : Bool}
    (hc : s.calls c = .push k index i beforeStop) (l : List (Task n m)) (v : Fin n) :
    ((s.setQueue (slot index i) l).setCall c (.unlock (slot index i))).Attended v := by
  by_cases hv : v = slot index i
  · refine ⟨fun k hk => ?_, fun _ _ => ⟨c, .inl ?_⟩, (ha v).stop⟩
    · have hcall : s.Holds (.call c) v := by
        simp only [Holds, hc, Call.held, hv]
      have hworker : s.Holds (.worker v) v := ⟨rfl, by rw [show (s.workers v).ctl = _ from hk]; rfl⟩
      cases Guarded.unique hl hcall hworker
    · rw [calls_setCall, hv]
  · refine setCall (s := s.setQueue (slot index i) l) ?_ ?_ _
    · exact (ha v).mono rfl (fun h => (update_of_ne hv ..).trans h) (fun _ d hd => ⟨d, hd⟩) (fun _ h => ⟨h, id⟩)
    · unfold Alerts
      show ¬(s.calls c = _ ∨ s.calls c = _)
      rw [hc]
      rintro (h | h) <;> cases h

/-- `Stop` goes on and still wakes the worker. -/
theorem setStopper (ha : s.Attended w) {x : Stopper n} (hx : s.stopper.willNotify w = true → x.willNotify w = true) :
    Attended { s with stopper := x } w :=
  ha.mono rfl id (fun _ d hd => ⟨d, hd⟩) (fun _ h => ⟨h, hx⟩)

/-- A call elsewhere alerts nobody. -/
theorem not_alerts {x : Call n} (hc : s.calls c = x) (hunlock : ∀ j, x ≠ .unlock j) (hnotify : ∀ j, x ≠ .notify j) :
    ¬s.Alerts c w := by
  rintro (h | h)
  · exact hunlock w (hc.symm.trans h)
  · exact hnotify w (hc.symm.trans h)

/-- A pop empties no empty queue. -/
theorem pop {l : List (Task n m)} {j v : Fin n} (h : s.queues v = []) {func : Task n m} {rest : List (Task n m)}
    (hq : s.queues j = func :: rest) : (s.setQueue j l).queues v = [] := by
  have hv : v ≠ j := by
    rintro rfl
    nomatch h.symm.trans hq
  exact (update_of_ne hv ..).trans h

/-- Every step keeps the workers attended. -/
theorem step (ha : ∀ v, s.Attended v) (hl : s.Locks) (hf : s.Flags) (hm : Moves s e s') : ∀ v, s'.Attended v := by
  cases hm with
  | @call c current hc rn random =>
    intro v
    have h := (ha v).setCall (not_alerts (idle_of_mayCall hc) (by nofun) (by nofun))
      (.lock s.issued (workerIndex current rn random) 0)
    exact ⟨h.missed, h.task, h.stop⟩
  | acquire hc =>
    intro v
    exact setCall (s := s.setMut _ _) ⟨(ha v).missed, (ha v).task, (ha v).stop⟩ (not_alerts hc (by nofun) (by nofun)) _
  | @push c id index i beforeStop hc =>
    intro v
    have h := push ha hl hc (s.queues (slot index i) ++ [⟨id, c, beforeStop⟩]) v
    exact ⟨h.missed, h.task, h.stop⟩
  | full hc =>
    intro v
    exact setCall (s := s.setMut _ _) ⟨(ha v).missed, (ha v).task, (ha v).stop⟩ (not_alerts hc (by nofun) (by nofun)) _
  | @unlock c j hc =>
    intro v
    refine (ha v).mono rfl id (fun _ d hd => ?_) (fun _ h => ⟨h, id⟩)
    by_cases hdc : d = c
    · subst hdc
      refine ⟨d, .inr ?_⟩
      rw [calls_setCall]
      rcases hd with hd | hd
      · exact congrArg Call.notify (Call.unlock.inj (hc.symm.trans hd))
      · nomatch hc.symm.trans hd
    · refine ⟨d, ?_⟩
      unfold Alerts
      rw [calls_setCall_of_ne _ _ hdc]
      exact hd
  | @notify c j hc =>
    intro v
    by_cases hv : v = j
    · subst hv
      exact ⟨(notifyOne ha v v).missed, fun h => absurd h (ctl_notifyOne_ne_wait s v),
        fun h => absurd h (ctl_notifyOne_ne_wait s v)⟩
    · refine (notifyOne ha j v).setCall ?_ .idle
      unfold Alerts
      rw [calls_notifyOne, hc]
      rintro (h | h)
      · nomatch h
      · exact hv (Call.notify.inj h).symm
  | pop hw hq => exact workerTo ha rfl (fun v h => pop h hq) rfl rfl rfl (by nofun) (by nofun)
  | miss hw => exact workerTo ha rfl (fun _ => id) rfl rfl rfl (by nofun) (by nofun)
  | leave hw => exact workerTo ha rfl (fun _ => id) rfl rfl rfl (by nofun) (by nofun)
  | idle hw => exact workerTo ha rfl (fun _ => id) rfl rfl rfl (by nofun) (by nofun)
  | @wakeUpNext w func hw =>
    exact workerTo (notifyOne ha (slot w 1)) rfl (fun _ => id) rfl rfl rfl (by nofun) (by nofun)
  | lock hw => exact workerTo ha rfl (fun _ => id) rfl rfl rfl (by nofun) (by nofun)
  | predicateStop hw => exact workerTo ha rfl (fun _ => id) rfl rfl rfl (by nofun) (by nofun)
  | predicate hw => exact workerTo ha rfl (fun _ => id) rfl rfl rfl (by nofun) (by nofun)
  | predicatePop hw hq => exact workerTo ha rfl (fun v h => pop h hq) rfl rfl rfl (by nofun) (by nofun)
  | @predicateMiss w i hw hq =>
    refine worker ha rfl (fun _ => id) rfl rfl rfl ⟨fun _ _ => (ha w).queue_eq_nil hw hq, fun hwait => ?_,
      fun hwait => ?_⟩
    · rw [workers_setCtl] at hwait
      nomatch hwait
    · rw [workers_setCtl] at hwait
      nomatch hwait
  | @wait w i hw hq =>
    refine worker ha rfl (fun _ => id) rfl rfl rfl ⟨fun _ _ => (ha w).queue_eq_nil hw hq, fun _ hne => ?_,
      fun _ hstop => ?_⟩
    · exact absurd ((ha w).queue_eq_nil hw hq) hne
    · nomatch hstop.symm.trans (hf.agrees hw).2
  | stopped hw => exact workerTo ha rfl (fun _ => id) rfl rfl rfl (by nofun) (by nofun)
  | resume hw => exact workerTo ha rfl (fun _ => id) rfl rfl rfl (by nofun) (by nofun)
  | finish hw => exact workerTo ha rfl (fun _ => id) rfl rfl rfl (by nofun) (by nofun)
  | wake hw => exact workerTo ha rfl (fun _ => id) rfl rfl rfl (by nofun) (by nofun)
  | stop hs =>
    intro v
    exact (ha v).setStopper (by rw [hs]; nofun)
  | stopTimer hs =>
    intro v
    exact (ha v).setStopper (by rw [hs]; nofun)
  | stopLock hs =>
    intro v
    exact (ha v).mono rfl id (fun _ d hd => ⟨d, hd⟩) (fun _ h => ⟨h, by rw [hs]; nofun⟩)
  | setStop hs hi =>
    intro v
    exact ⟨(ha v).missed, (ha v).task, fun _ _ => by simp [Stopper.willNotify]⟩
  | stopUnlock hs =>
    intro v
    exact (ha v).mono rfl id (fun _ d hd => ⟨d, hd⟩) (fun _ h => ⟨h, by rw [hs]; exact id⟩)
  | @stopNotify w hs =>
    intro v
    by_cases hv : v = w
    · subst hv
      exact ⟨(notifyOne ha v v).missed, fun h => absurd h (ctl_notifyOne_ne_wait s v),
        fun h => absurd h (ctl_notifyOne_ne_wait s v)⟩
    · refine (notifyOne ha w v).setStopper (fun h => ?_)
      rw [stopper_notifyOne, hs] at h
      simp only [Stopper.willNotify, decide_eq_true_eq] at h ⊢
      omega
  | unlocked hs hi =>
    intro v
    refine (ha v).setStopper (fun h => ?_)
    rw [hs] at h
    simp only [Stopper.willNotify, decide_eq_true_eq] at h
    omega
  | join hs =>
    intro v
    exact (ha v).setStopper (by rw [hs]; nofun)
  | joined hs =>
    intro v
    exact (ha v).setStopper (by rw [hs]; nofun)

end Attended

end State

/-! ## Calls, and joined workers -/

/-- `Stop` has joined the worker. -/
def Stopper.joined : Stopper n → Nat → Bool
  | .join i, j => j < i
  | .returned, _ => true
  | _, _ => false

namespace State

/-- A worker calls `schedule` only from a task; a call that has acquired a mutex before `Stop` still comes before it;
and a worker that `Stop` has joined has returned. -/
structure Calling (s : State n m) : Prop where
  running : ∀ w, s.calls (.worker w) ≠ .idle → ∃ func, (s.workers w).ctl = .run func
  early : ∀ c id index i, s.calls c = .push id index i true → s.stopper.acquired (slot index i) = false
  joined : ∀ w : Fin n, s.stopper.joined w = true → (s.workers w).ctl = .returned

namespace Calling

/-- A worker that runs nothing calls nothing. -/
theorem idle (h : s.Calling) {x : WorkerCtl n m} (hw : (s.workers w).ctl = x) (hx : ∀ func, x ≠ .run func) :
    s.calls (.worker w) = .idle := by
  by_contra hne
  obtain ⟨func, hfunc⟩ := h.running w hne
  exact hx func (hw.symm.trans hfunc)

/-- A worker moves. -/
theorem worker (h : s.Calling) {x : Worker n m} (hworkers : s'.workers = update s.workers w x)
    (hcalls : s'.calls = s.calls) (hstopper : s'.stopper = s.stopper) (hidle : s.calls (.worker w) = .idle)
    (hw : (s.workers w).ctl ≠ .returned) : s'.Calling := by
  refine ⟨fun v hv => ?_, ?_, fun v hv => ?_⟩
  · have hne : v ≠ w := by
      rintro rfl
      rw [hcalls] at hv
      exact hv hidle
    rw [hcalls] at hv
    rw [hworkers, update_of_ne hne]
    exact h.running v hv
  · rw [hcalls, hstopper]
    exact h.early
  · rw [hstopper] at hv
    have hne : v ≠ w := by
      rintro rfl
      exact hw (h.joined v hv)
    rw [hworkers, update_of_ne hne]
    exact h.joined v hv

/-- A worker moves that is not in a task. -/
theorem workerFrom (h : s.Calling) {x : Worker n m} {y : WorkerCtl n m} (hw : (s.workers w).ctl = y)
    (hworkers : s'.workers = update s.workers w x) (hcalls : s'.calls = s.calls) (hstopper : s'.stopper = s.stopper)
    (hrun : ∀ func, y ≠ .run func) (hy : y ≠ .returned) : s'.Calling :=
  h.worker hworkers hcalls hstopper (h.idle hw hrun) (by rw [hw]; exact hy)

/-- To wake a worker starts no call. -/
theorem notifyOne (h : s.Calling) (w : Fin n) : (s.notifyOne w).Calling := by
  rcases s.notifyOne_eq w with ⟨heq, -⟩ | ⟨heq, hw⟩
  · rw [heq]
    exact h
  · rw [heq]
    exact h.workerFrom hw rfl rfl rfl (by nofun) (by nofun)

/-- A call moves. -/
theorem setCall (h : s.Calling) {x : Call n}
    (hrun : s.calls c = .idle → ∀ w, c = .worker w → ∃ func, (s.workers w).ctl = .run func)
    (hearly : ∀ id index i, x = .push id index i true → s.stopper.acquired (slot index i) = false) :
    (s.setCall c x).Calling := by
  refine ⟨fun w hw => ?_, fun d id index i hd => ?_, h.joined⟩
  · by_cases hc : s.calls (.worker w) = .idle
    · by_cases hwc : Caller.worker w = c
      · exact hrun (hwc ▸ hc) w hwc.symm
      · rw [calls_setCall_of_ne s x hwc] at hw
        exact absurd hc hw
    · exact h.running w hc
  · by_cases hdc : d = c
    · subst hdc
      rw [calls_setCall] at hd
      exact hearly id index i hd
    · rw [calls_setCall_of_ne s x hdc] at hd
      exact h.early d id index i hd

/-- `Stop` moves: it acquires no mutex that a call holds, and has joined only workers that have returned. -/
theorem setStopper (h : s.Calling) {x : Stopper n}
    (hearly : ∀ c (j : Fin n), s.Holds (.call c) j → s.stopper.acquired j = false → x.acquired j = false)
    (hjoined : ∀ w : Fin n, x.joined w = true → (s.workers w).ctl = .returned) : Calling { s with stopper := x } := by
  refine ⟨h.running, fun c id index i hc => ?_, hjoined⟩
  have hheld : s.Holds (.call c) (slot index i) := by
    simp only [Holds, show s.calls c = _ from hc, Call.held]
  exact hearly c _ hheld (h.early c id index i hc)

/-- A worker calls from its task. -/
theorem mayCall_run {current : Option (Fin n)} (hc : s.mayCall c = some current) (w : Fin n) (hw : c = .worker w) :
    ∃ func, (s.workers w).ctl = .run func := by
  subst hw
  unfold mayCall at hc
  split at hc
  · nomatch hc
  · simp only at hc
    split at hc
    · rename_i func hrun
      exact ⟨func, hrun⟩
    · nomatch hc

/-- Every step keeps the calls. -/
theorem step (h : s.Calling) (hl : s.Locks) (hm : Moves s e s') : s'.Calling := by
  cases hm with
  | @call c current hc rn random =>
    have h' : (s.setCall c (.lock s.issued (workerIndex current rn random) 0)).Calling :=
      h.setCall (fun _ => mayCall_run hc) (by nofun)
    exact ⟨h'.running, h'.early, h'.joined⟩
  | @acquire c id index i hc =>
    have h' : (s.setCall c (.push id index i (!s.stopper.acquired (slot index i)))).Calling := by
      refine h.setCall (fun hidle => nomatch hc.symm.trans hidle) (fun id' index' i' heq => ?_)
      obtain ⟨-, rfl, rfl, hb⟩ := Call.push.inj heq
      simpa using hb
    exact ⟨h'.running, h'.early, h'.joined⟩
  | @push c id index i beforeStop hc =>
    have h' : (s.setCall c (.unlock (slot index i))).Calling :=
      h.setCall (fun hidle => nomatch hc.symm.trans hidle) (by nofun)
    exact ⟨h'.running, h'.early, h'.joined⟩
  | @full c id index i beforeStop hc =>
    have h' : (s.setCall c (if i + 1 < n then .lock id index (i + 1) else .idle)).Calling :=
      h.setCall (fun hidle => nomatch hc.symm.trans hidle) (by split <;> nofun)
    exact ⟨h'.running, h'.early, h'.joined⟩
  | @unlock c j hc =>
    have h' : (s.setCall c (.notify j)).Calling := h.setCall (fun hidle => nomatch hc.symm.trans hidle) (by nofun)
    exact ⟨h'.running, h'.early, h'.joined⟩
  | @notify c j hc =>
    refine (h.notifyOne j).setCall (fun hidle => ?_) (by nofun)
    rw [calls_notifyOne, hc] at hidle
    nomatch hidle
  | pop hw => exact h.workerFrom hw rfl rfl rfl (by nofun) (by nofun)
  | miss hw => exact h.workerFrom hw rfl rfl rfl (by nofun) (by nofun)
  | leave hw => exact h.workerFrom hw rfl rfl rfl (by nofun) (by nofun)
  | idle hw => exact h.workerFrom hw rfl rfl rfl (by nofun) (by nofun)
  | @wakeUpNext w func hw =>
    refine (h.notifyOne (slot w 1)).workerFrom (y := .wakeUpNext func) ?_ rfl rfl rfl (by nofun) (by nofun)
    rw [workers_notifyOne (by rw [hw]; nofun), hw]
  | lock hw => exact h.workerFrom hw rfl rfl rfl (by nofun) (by nofun)
  | predicateStop hw => exact h.workerFrom hw rfl rfl rfl (by nofun) (by nofun)
  | predicate hw => exact h.workerFrom hw rfl rfl rfl (by nofun) (by nofun)
  | predicatePop hw => exact h.workerFrom hw rfl rfl rfl (by nofun) (by nofun)
  | predicateMiss hw => exact h.workerFrom hw rfl rfl rfl (by nofun) (by nofun)
  | wait hw => exact h.workerFrom hw rfl rfl rfl (by nofun) (by nofun)
  | stopped hw => exact h.workerFrom hw rfl rfl rfl (by nofun) (by nofun)
  | resume hw => exact h.workerFrom hw rfl rfl rfl (by nofun) (by nofun)
  | finish hw hc => exact h.worker rfl rfl rfl hc (by rw [hw]; nofun)
  | wake hw => exact h.workerFrom hw rfl rfl rfl (by nofun) (by nofun)
  | stop hs => exact h.setStopper (fun _ _ _ _ => rfl) (by nofun)
  | stopTimer hs => exact h.setStopper (fun _ _ _ _ => by simp [Stopper.acquired]) (by nofun)
  | @stopLock w hs hfree =>
    have h' : Calling { s with stopper := .lock (w + 1) } := by
      refine h.setStopper (fun c j hheld hj => ?_) (by nofun)
      have hne : j ≠ w := by
        rintro rfl
        exact Guarded.held hl hheld hfree
      rw [hs] at hj
      simp only [Stopper.acquired, decide_eq_false_iff_not, Fin.ext_iff, ne_eq] at hj hne ⊢
      omega
    exact ⟨h'.running, h'.early, h'.joined⟩
  | setStop hs hi =>
    have h' : Calling { s with stopper := .unlock 0 } := by
      refine h.setStopper (fun c j _ hj => ?_) (by nofun)
      rw [hs] at hj
      simp only [Stopper.acquired, decide_eq_false_iff_not] at hj
      omega
    exact ⟨h'.running, h'.early, h'.joined⟩
  | @stopUnlock w hs =>
    have h' : Calling { s with stopper := .notify w } :=
      h.setStopper (fun c j _ hj => by rw [hs] at hj; exact hj) (by nofun)
    exact ⟨h'.running, h'.early, h'.joined⟩
  | @stopNotify w hs =>
    refine (h.notifyOne w).setStopper (fun c j _ hj => ?_) (by nofun)
    rw [stopper_notifyOne, hs] at hj
    exact hj
  | unlocked hs =>
    exact h.setStopper (fun c j _ hj => by rw [hs] at hj; exact hj) (fun w hw => by simp [Stopper.joined] at hw)
  | @join w hs hw =>
    refine h.setStopper (fun c j _ hj => by rw [hs] at hj; exact hj) (fun v hv => ?_)
    simp only [Stopper.joined, decide_eq_true_eq] at hv
    by_cases hvw : v = w
    · rw [hvw]
      exact hw
    · refine h.joined v ?_
      rw [hs]
      simp only [Stopper.joined, decide_eq_true_eq, Fin.ext_iff] at hvw ⊢
      omega
  | joined hs hi =>
    refine h.setStopper (fun c j _ hj => by rw [hs] at hj; exact hj) (fun v _ => h.joined v ?_)
    rw [hs]
    simp only [Stopper.joined, decide_eq_true_eq]
    omega

end Calling

end State

/-! ## No task is left behind -/

/-- The worker answers for the task: it ran the task that scheduled it, or `stop_` was not set yet. -/
def Task.Answers (func : Task n m) (w : Fin n) : Prop := func.caller = .worker w ∨ func.beforeStop = true

/-- The worker will not look at the queue again, unless it finds a task in another one. -/
def Worker.Passed (x : Worker n m) (w j : Fin n) : Prop :=
  x.stopWhenTryPopFailed = true ∧ (x.ctl = .returned ∨ ∃ i, x.ctl = .tryPop i ∧ ∃ k < i, slot w k = j)

/-- A worker elsewhere has passed no queue. -/
theorem Worker.not_passed {x : Worker n m} {j : Fin n} (hret : x.ctl ≠ .returned)
    (htry : ∀ i, x.ctl ≠ .tryPop (i + 1)) : ¬x.Passed w j := by
  rintro ⟨-, hx | ⟨i, hx, k, hk, -⟩⟩
  · exact hret hx
  · cases i with
    | zero => exact Nat.not_lt_zero k hk
    | succ i => exact htry i hx

namespace State

/-- While a task lies in a queue, no worker that answers for it has passed the queue. -/
def Watched (s : State n m) : Prop := ∀ j, ∀ func ∈ s.queues j, ∀ w, func.Answers w → ¬(s.workers w).Passed w j

/-- Before `Stop` no worker has passed a queue. -/
theorem Flags.not_passed (hf : s.Flags) (hstop : s.stop = false) (w j : Fin n) : ¬(s.workers w).Passed w j := by
  rintro ⟨hlast, hx | ⟨i, hx, -⟩⟩
  · nomatch hstop.symm.trans (hf.agrees hx).2
  · nomatch hstop.symm.trans (hf.agrees hx hlast)

namespace Watched

/-- A worker moves; the queues it passes now are empty. -/
theorem worker (hwatch : s.Watched) {x : Worker n m} (hworkers : s'.workers = update s.workers w x)
    (hq : ∀ j, ∀ func ∈ s'.queues j, func ∈ s.queues j)
    (hx : ∀ j, x.Passed w j → s'.queues j = [] ∨ (s.workers w).Passed w j) :
    s'.Watched := by
  intro j func hfunc v hans hpass
  rw [hworkers] at hpass
  by_cases hv : v = w
  · subst hv
    rw [update_self] at hpass
    rcases hx j hpass with hnil | hpass
    · rw [hnil] at hfunc
      nomatch hfunc
    · exact hwatch j func (hq j func hfunc) v hans hpass
  · rw [update_of_ne hv] at hpass
    exact hwatch j func (hq j func hfunc) v hans hpass

/-- A worker moves to a place where it has passed nothing. -/
theorem workerTo (hwatch : s.Watched) {x : Worker n m} (hworkers : s'.workers = update s.workers w x)
    (hq : ∀ j, ∀ func ∈ s'.queues j, func ∈ s.queues j) (hret : x.ctl ≠ .returned)
    (htry : ∀ i, x.ctl ≠ .tryPop (i + 1)) : s'.Watched :=
  hwatch.worker hworkers hq (fun _ hpass => absurd hpass (Worker.not_passed hret htry))

/-- To wake a worker leaves no task alone. -/
theorem notifyOne (hwatch : s.Watched) (w : Fin n) : (s.notifyOne w).Watched := by
  rcases s.notifyOne_eq w with ⟨heq, -⟩ | ⟨heq, -⟩
  · rw [heq]
    exact hwatch
  · rw [heq]
    exact hwatch.workerTo rfl (fun _ _ => id) (by nofun) (by nofun)

theorem mem_of_mem_setQueue {j k : Fin n} {func : Task n m} {rest : List (Task n m)} (hq : s.queues j = func :: rest)
    (t : Task n m) (h : t ∈ (s.setQueue j rest).queues k) : t ∈ s.queues k := by
  by_cases hk : k = j
  · subst hk
    rw [show (s.setQueue k rest).queues k = rest from update_self ..] at h
    rw [hq]
    exact List.mem_cons_of_mem func h
  · rwa [show (s.setQueue j rest).queues k = s.queues k from update_of_ne hk ..] at h

/-- A worker finds a queue empty: this is the one that it passes. -/
theorem miss (hw : (s.workers w).ctl = .tryPop i) (hlast : (s.workers w).stopWhenTryPopFailed = true)
    (hq : s.queues (slot w i) = []) {k : Nat} (hk : k < i + 1) :
    s.queues (slot w k) = [] ∨ (s.workers w).Passed w (slot w k) := by
  rcases Nat.lt_or_eq_of_le (Nat.le_of_lt_succ hk) with hki | rfl
  · exact .inr ⟨hlast, .inr ⟨i, hw, k, hki, rfl⟩⟩
  · exact .inl hq

/-- A task is pushed: a worker that answers for it runs a task, or `stop_` is not set. -/
theorem push (hwatch : s.Watched) (hf : s.Flags) (hcalling : s.Calling) {id : Nat} {index : Fin n} {i : Nat}
    {beforeStop : Bool} (hc : s.calls c = .push id index i beforeStop) (hworkers : s'.workers = s.workers)
    (hq : s'.queues = update s.queues (slot index i) (s.queues (slot index i) ++ [⟨id, c, beforeStop⟩])) :
    s'.Watched := by
  intro j func hfunc w hans
  rw [hworkers]
  have hmem : func ∈ s.queues j ∨ func = ⟨id, c, beforeStop⟩ := by
    rw [hq] at hfunc
    by_cases hj : j = slot index i
    · subst hj
      rw [update_self, List.mem_append, List.mem_singleton] at hfunc
      exact hfunc
    · rw [update_of_ne hj] at hfunc
      exact .inl hfunc
  rcases hmem with hmem | rfl
  · exact hwatch j func hmem w hans
  · rcases hans with hcaller | hbefore
    · -- the worker runs the task that calls
      have hbusy : s.calls (.worker w) ≠ .idle := by
        rw [← show c = .worker w from hcaller, hc]
        nofun
      obtain ⟨func, hrun⟩ := hcalling.running w hbusy
      exact Worker.not_passed (by rw [hrun]; nofun) (by rw [hrun]; nofun)
    · -- `Stop` does not have the mutex yet
      refine hf.not_passed ?_ w j
      have hearly := hcalling.early c id index i (by rw [hc, show beforeStop = true from hbefore])
      rw [hf.stopper]
      cases hs : s.stopper with
      | idle => rfl
      | stopTimer => rfl
      | lock k => rfl
      | unlock k => rw [hs] at hearly; nomatch hearly
      | notify k => rw [hs] at hearly; nomatch hearly
      | join k => rw [hs] at hearly; nomatch hearly
      | returned => rw [hs] at hearly; nomatch hearly

/-- Every step keeps the tasks watched. -/
theorem step (hwatch : s.Watched) (hf : s.Flags) (hcalling : s.Calling) (hm : Moves s e s') : s'.Watched := by
  cases hm with
  | call hc => exact hwatch
  | acquire hc => exact hwatch
  | push hc => exact hwatch.push hf hcalling hc rfl rfl
  | full hc => exact hwatch
  | unlock hc => exact hwatch
  | @notify c j hc => exact hwatch.notifyOne j
  | pop hw hq => exact hwatch.workerTo rfl (fun _ => mem_of_mem_setQueue hq) (by nofun) (by nofun)
  | @miss w i hw hq =>
    refine hwatch.worker rfl (fun _ _ => id) ?_
    rintro j ⟨hlast, hret | ⟨i', htry, k, hk, rfl⟩⟩
    · nomatch hret
    · exact miss hw hlast hq (WorkerCtl.tryPop.inj htry ▸ hk)
  | @leave w i hw hq hi hlast =>
    refine hwatch.worker rfl (fun _ _ => id) (fun j _ => ?_)
    obtain ⟨k, hk, rfl⟩ := slot_surjective w j
    exact miss hw hlast hq (Nat.lt_of_lt_of_le hk hi)
  | idle hw => exact hwatch.workerTo rfl (fun _ _ => id) (by nofun) (by nofun)
  | @wakeUpNext w func hw => exact (hwatch.notifyOne (slot w 1)).workerTo rfl (fun _ _ => id) (by nofun) (by nofun)
  | lock hw => exact hwatch.workerTo rfl (fun _ _ => id) (by nofun) (by nofun)
  | predicateStop hw => exact hwatch.workerTo rfl (fun _ _ => id) (by nofun) (by nofun)
  | predicate hw => exact hwatch.workerTo rfl (fun _ _ => id) (by nofun) (by nofun)
  | predicatePop hw hq => exact hwatch.workerTo rfl (fun _ => mem_of_mem_setQueue hq) (by nofun) (by nofun)
  | predicateMiss hw => exact hwatch.workerTo rfl (fun _ _ => id) (by nofun) (by nofun)
  | wait hw => exact hwatch.workerTo rfl (fun _ _ => id) (by nofun) (by nofun)
  | stopped hw => exact hwatch.workerTo rfl (fun _ _ => id) (by nofun) (by nofun)
  | resume hw => exact hwatch.workerTo rfl (fun _ _ => id) (by nofun) (by nofun)
  | finish hw => exact hwatch.workerTo rfl (fun _ _ => id) (by nofun) (by nofun)
  | wake hw => exact hwatch.workerTo rfl (fun _ _ => id) (by nofun) (by nofun)
  | stop hs => exact hwatch
  | stopTimer hs => exact hwatch
  | stopLock hs => exact hwatch
  | setStop hs => exact hwatch
  | stopUnlock hs => exact hwatch
  | @stopNotify w hs => exact hwatch.notifyOne w
  | unlocked hs => exact hwatch
  | join hs => exact hwatch
  | joined hs => exact hwatch

end Watched

end State

/-! ## Every accepted task is somewhere -/

/-- The number of the call, until its task is accepted. -/
def Call.carried : Call n → List Nat
  | .lock id _ _ => [id]
  | .push id _ _ _ => [id]
  | _ => []

/-- The task that the worker has popped and not yet invoked. -/
def WorkerCtl.carried : WorkerCtl n m → List (Task n m)
  | .wakeUpNext func => [func]
  | .waited func => func.toList
  | _ => []

namespace State

/-- The calls have different numbers, and each accepted task is in a queue, with a worker or invoked, once. -/
structure Books (s : State n m) : Prop where
  ids : ∀ id, ∑ c, (s.calls c).carried.count id + (s.accepted.map Task.id).count id ≤ if id < s.issued then 1 else 0
  tasks : ∀ func, ∑ j, (s.queues j).count func + ∑ w, (s.workers w).ctl.carried.count func + s.invoked.count func =
    s.accepted.count func

namespace Books

variable {x : Call n} {j : Fin n} {func : Task n m}

section

variable (hb : s.Books)
include hb

/-- A worker moves: what it carries, a queue and the invoked tasks have the same tasks as before. -/
theorem move {x : Worker n m} {l : List (Task n m)}
    (hworkers : s'.workers = update s.workers w x) (hqueues : s'.queues = update s.queues j l)
    (hcalls : s'.calls = s.calls) (hissued : s'.issued = s.issued) (haccepted : s'.accepted = s.accepted)
    (hcount : ∀ func, l.count func + x.ctl.carried.count func + s'.invoked.count func = (s.queues j).count func +
      (s.workers w).ctl.carried.count func + s.invoked.count func) :
    s'.Books := by
  refine ⟨by rw [hcalls, hissued, haccepted]; exact hb.ids, fun func => ?_⟩
  have hqueue := sum_update (Finset.mem_univ j) (fun l : List (Task n m) => l.count func) s.queues l
  have hworker := sum_update (Finset.mem_univ w) (fun y : Worker n m => y.ctl.carried.count func) s.workers x
  have htasks := hb.tasks func
  have hfunc := hcount func
  rw [hworkers, hqueues, haccepted]
  omega

/-- A worker moves, and carries the same. -/
theorem worker {x : Worker n m} (hworkers : s'.workers = update s.workers w x)
    (hqueues : s'.queues = s.queues) (hcalls : s'.calls = s.calls) (hissued : s'.issued = s.issued)
    (haccepted : s'.accepted = s.accepted) (hinvoked : s'.invoked = s.invoked)
    (hx : x.ctl.carried = (s.workers w).ctl.carried) : s'.Books := by
  refine hb.move (j := w) (l := s.queues w) hworkers ?_ hcalls hissued haccepted (fun func => ?_)
  · rw [update_eq_self]
    exact hqueues
  · rw [hx, hinvoked]

/-- To wake a worker moves no task. -/
theorem notifyOne (w : Fin n) : (s.notifyOne w).Books := by
  rcases s.notifyOne_eq w with ⟨heq, -⟩ | ⟨heq, hw⟩
  · rw [heq]
    exact hb
  · rw [heq]
    exact hb.worker rfl rfl rfl rfl rfl rfl (by rw [hw]; rfl)

/-- A worker pops a task. -/
theorem pop {x : WorkerCtl n m} {rest : List (Task n m)} (hq : s.queues j = func :: rest)
    (hw : (s.workers w).ctl.carried = []) (hx : x.carried = [func]) : ((s.setQueue j rest).setCtl w x).Books := by
  refine hb.move (j := j) (l := rest) rfl rfl rfl rfl rfl (fun t => ?_)
  rw [hq, hw]
  show rest.count t + x.carried.count t + s.invoked.count t = _
  rw [hx, List.count_singleton, List.count_cons, List.count_nil]
  omega

/-- A worker invokes the task that it carries. -/
theorem invoke (hw : (s.workers w).ctl.carried = [func]) (hcalls : s'.calls = s.calls)
    (hworkers : s'.workers = update s.workers w { s.workers w with ctl := .run func })
    (hqueues : s'.queues = s.queues) (hissued : s'.issued = s.issued) (haccepted : s'.accepted = s.accepted)
    (hinvoked : s'.invoked = s.invoked ++ [func]) : s'.Books := by
  refine hb.move (j := w) (l := s.queues w) hworkers ?_ hcalls hissued haccepted (fun t => ?_)
  · rw [update_eq_self]
    exact hqueues
  · rw [hw, hinvoked, List.count_append]
    show _ + 0 + _ = _
    omega

/-- A call moves, and carries the same or nothing any more. -/
theorem setCall (hx : x.carried = (s.calls c).carried ∨ x.carried = [])
    (hcalls : s'.calls = update s.calls c x) (hworkers : s'.workers = s.workers)
    (hqueues : s'.queues = s.queues) (hissued : s'.issued = s.issued) (haccepted : s'.accepted = s.accepted)
    (hinvoked : s'.invoked = s.invoked) : s'.Books := by
  refine ⟨fun id => ?_, by rw [hworkers, hqueues, haccepted, hinvoked]; exact hb.tasks⟩
  have hsum := sum_update (Finset.mem_univ c) (fun y : Call n => y.carried.count id) s.calls x
  have hids := hb.ids id
  have hle : x.carried.count id ≤ (s.calls c).carried.count id := by
    rcases hx with hx | hx
    · rw [hx]
    · rw [hx]
      exact Nat.zero_le _
  rw [hcalls, haccepted, hissued]
  omega

/-- A new call. -/
theorem call (hc : s.calls c = .idle) (hx : x.carried = [s.issued]) :
    Books { s.setCall c x with issued := s.issued + 1 } := by
  refine ⟨fun id => ?_, hb.tasks⟩
  have hsum := sum_update (Finset.mem_univ c) (fun y : Call n => y.carried.count id) s.calls x
  have hids := hb.ids id
  show ∑ d, (update s.calls c x d).carried.count id + (s.accepted.map Task.id).count id ≤ if id < s.issued + 1 then 1
    else 0
  rw [hc, hx, List.count_singleton] at hsum
  have hidle : (Call.idle : Call n).carried.count id = 0 := rfl
  by_cases hid : s.issued = id
  · subst hid
    rw [if_neg (Nat.lt_irrefl _)] at hids
    rw [if_pos (Nat.lt_succ_self _)]
    rw [if_pos (beq_self_eq_true _)] at hsum
    omega
  · rw [if_neg (by simpa using hid)] at hsum
    have hlt : id < s.issued + 1 ↔ id < s.issued := by omega
    simp only [hlt]
    omega

/-- A task is accepted. -/
theorem push (hc : (s.calls c).carried = [func.id]) (hx : x.carried = [])
    (hcalls : s'.calls = update s.calls c x)
    (hqueues : s'.queues = update s.queues j (s.queues j ++ [func])) (hworkers : s'.workers = s.workers)
    (hissued : s'.issued = s.issued) (haccepted : s'.accepted = s.accepted ++ [func])
    (hinvoked : s'.invoked = s.invoked) : s'.Books := by
  refine ⟨fun id => ?_, fun t => ?_⟩
  · have hsum := sum_update (Finset.mem_univ c) (fun y : Call n => y.carried.count id) s.calls x
    have hids := hb.ids id
    rw [hc, hx, List.count_nil] at hsum
    rw [hcalls, hissued, haccepted, List.map_append, List.count_append, List.map_singleton]
    omega
  · have hsum := sum_update (Finset.mem_univ j) (fun l : List (Task n m) => l.count t) s.queues (s.queues j ++ [func])
    have htasks := hb.tasks t
    rw [hqueues, hworkers, haccepted, hinvoked, List.count_append]
    rw [List.count_append] at hsum
    omega

/-- Every step keeps the books. -/
theorem step (hf : s.Flags) (hm : Moves s e s') : s'.Books := by
  cases hm with
  | call hc => exact hb.call (idle_of_mayCall hc) rfl
  | acquire hc => exact hb.setCall (.inl (by rw [hc]; rfl)) rfl rfl rfl rfl rfl rfl
  | push hc => exact hb.push (by rw [hc]; rfl) rfl rfl rfl rfl rfl rfl rfl
  | full hc =>
    refine hb.setCall ?_ rfl rfl rfl rfl rfl rfl
    rw [hc]
    split
    · exact .inl rfl
    · exact .inr rfl
  | unlock hc => exact hb.setCall (.inr rfl) rfl rfl rfl rfl rfl rfl
  | @notify c j hc => exact (hb.notifyOne j).setCall (.inr rfl) rfl rfl rfl rfl rfl rfl
  | pop hw hq => exact hb.pop hq (by rw [hw]; rfl) rfl
  | miss hw => exact hb.worker rfl rfl rfl rfl rfl rfl (by rw [hw]; rfl)
  | leave hw => exact hb.worker rfl rfl rfl rfl rfl rfl (by rw [hw]; rfl)
  | idle hw => exact hb.worker rfl rfl rfl rfl rfl rfl (by rw [hw]; rfl)
  | @wakeUpNext w func hw =>
    refine (hb.notifyOne (slot w 1)).invoke ?_ rfl rfl rfl rfl rfl rfl
    rw [workers_notifyOne (by rw [hw]; nofun), hw]
    rfl
  | lock hw => exact hb.worker rfl rfl rfl rfl rfl rfl (by rw [hw]; rfl)
  | predicateStop hw => exact hb.worker rfl rfl rfl rfl rfl rfl (by rw [hw]; rfl)
  | predicate hw => exact hb.worker rfl rfl rfl rfl rfl rfl (by rw [hw]; rfl)
  | predicatePop hw hq => exact hb.pop hq (by rw [hw]; rfl) rfl
  | predicateMiss hw => exact hb.worker rfl rfl rfl rfl rfl rfl (by rw [hw]; rfl)
  | wait hw => exact hb.worker rfl rfl rfl rfl rfl rfl (by rw [hw]; rfl)
  | @stopped w func hw hstop =>
    -- what the predicate popped would be lost here
    have hagrees := hf.agrees hw
    cases func with
    | none => exact hb.worker rfl rfl rfl rfl rfl rfl (by rw [hw]; rfl)
    | some func => nomatch hstop.symm.trans hagrees.2
  | resume hw => exact hb.invoke (by rw [hw]; rfl) rfl rfl rfl rfl rfl rfl
  | finish hw => exact hb.worker rfl rfl rfl rfl rfl rfl (by rw [hw]; rfl)
  | wake hw => exact hb.worker rfl rfl rfl rfl rfl rfl (by rw [hw]; rfl)
  | stop hs => exact ⟨hb.ids, hb.tasks⟩
  | stopTimer hs => exact ⟨hb.ids, hb.tasks⟩
  | stopLock hs => exact ⟨hb.ids, hb.tasks⟩
  | setStop hs => exact ⟨hb.ids, hb.tasks⟩
  | stopUnlock hs => exact ⟨hb.ids, hb.tasks⟩
  | @stopNotify w hs => exact ⟨(hb.notifyOne w).ids, (hb.notifyOne w).tasks⟩
  | unlocked hs => exact ⟨hb.ids, hb.tasks⟩
  | join hs => exact ⟨hb.ids, hb.tasks⟩
  | joined hs => exact ⟨hb.ids, hb.tasks⟩

end

end Books

/-! ## Every run -/

/-- What holds all the time. -/
structure Inv (s : State n m) : Prop where
  locks : s.Locks
  flags : s.Flags
  attended : ∀ w, s.Attended w
  calling : s.Calling
  watched : s.Watched
  books : s.Books

/-- It holds at the start. -/
theorem Inv.start (n m : Nat) : (State.start n m).Inv where
  locks j h := by
    rcases h with c | w | _
    · simp [State.start, Holds, Call.held]
    · simp [State.start, Holds, WorkerCtl.holds]
    · simp [State.start, Holds, Stopper.holds]
  flags := ⟨fun _ h => absurd h Bool.false_ne_true, rfl⟩
  attended _ := .of_ctl rfl (fun h => by cases h) (fun _ h => by cases h)
  calling := ⟨fun _ h => absurd rfl h, fun _ _ _ _ h => (by cases h), fun _ h => absurd h Bool.false_ne_true⟩
  watched _ _ h := by cases h
  books := ⟨fun id => by simp [State.start, Call.carried], fun func => by simp [State.start, WorkerCtl.carried]⟩

/-- Every step keeps it. -/
theorem Inv.step (hi : s.Inv) (hm : Moves s e s') : s'.Inv where
  locks := hi.locks.step hm
  flags := hi.flags.step hi.locks hm
  attended := Attended.step hi.attended hi.locks hi.flags hm
  calling := hi.calling.step hi.locks hm
  watched := hi.watched.step hi.flags hi.calling hm
  books := hi.books.step hi.flags hm

/-- So does a run. -/
theorem Inv.runAll (hi : s.Inv) {es : List (Event n m)} (h : s.runAll es = some s') : s'.Inv := by
  induction es generalizing s with
  | nil => exact Option.some.inj h ▸ hi
  | cons e rest ih =>
    obtain ⟨t, ht, hrest⟩ := Option.bind_eq_some_iff.1 h
    exact ih (hi.step (step_moves ht)) hrest

end State

end Executor

end Tunnel
