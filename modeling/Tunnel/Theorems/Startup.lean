import Tunnel.Lemmas.Startup

/-!
# The constructor waits for all threads

Whoever holds `init_mut` can go on, and the constructor sleeps only while some thread has yet to notify it. So it
returns, and all threads have counted themselves by then. A worker may still be before its `init_cv.notify_one()`, which
is the one thing that is touched too late.
-/

namespace Tunnel

namespace Executor

open Lib Function

variable {n : Nat}

namespace Startup

variable {s s' : Startup n}

/-! ## No standstill -/

/-- Nobody can go on; that `wait` wakes up of itself does not count. -/
def Standstill (s : Startup n) : Prop := s.step .main = none ∧ ∀ t, s.step (.thread t) = none

namespace Standstill

/-- The mutex is free. -/
theorem free (h : s.Standstill) (hi : s.Inv) : s.initMut = none := by
  by_contra hne
  obtain ⟨holder, hholds⟩ := hi.guarded.holder (j := ()) hne
  cases holder with
  | main =>
    have hnone := h.1
    change s.main.holds = true at hholds
    cases hm : s.main with
    | predicate => simp [step, construct, hm] at hnone
    | leave => simp [step, construct, hm] at hnone
    | _ => rw [hm] at hholds; cases hholds
  | thread t =>
    have hnone := h.2 t
    change t.holds (s.threads t) = true at hholds
    cases ht : s.threads t with
    | unborn => rw [ht] at hholds; cases t <;> cases hholds
    | lock => rw [ht] at hholds; cases t <;> cases hholds
    | loop => rw [ht] at hholds; cases t <;> cases hholds
    | _ => simp [step, Startup.thread, ht] at hnone

/-- The constructor waits or has returned. -/
theorem main (h : s.Standstill) (hi : s.Inv) : s.main = .wait ∨ s.main = .returned := by
  have hnone := h.1
  have hfree := h.free hi
  cases hm : s.main with
  | wait => exact .inl rfl
  | returned => exact .inr rfl
  | startWorker i =>
    simp only [step, construct, hm] at hnone
    split at hnone <;> cases hnone
  | _ => simp [step, construct, hm, hfree] at hnone

/-- The threads are in their loops. -/
theorem threads (h : s.Standstill) (hi : s.Inv) (t : Thread n) : s.threads t = .loop := by
  have hnone := h.2 t
  have hfree := h.free hi
  cases ht : s.threads t with
  | loop => rfl
  | unborn =>
    have hstarts := (hi.born t).1 ht
    rcases h.main hi with hm | hm <;> rw [hm] at hstarts <;> cases hstarts
  | _ => simp [step, Startup.thread, ht, hfree] at hnone

/-- The constructor does not sleep when all threads have notified it. -/
theorem returned (h : s.Standstill) (hi : s.Inv) : s.main = .returned := by
  refine (h.main hi).resolve_left ?_
  intro hm
  obtain ⟨t, ht⟩ := hi.awaited hm
  rw [h.threads hi t] at ht
  cases t <;> cases ht

end Standstill

/-! ## How long it takes -/

/-- How many steps the constructor takes from here, unless it is woken. -/
def mainEffort (n : Nat) : MainCtl → Nat
  | .startTimer => n + 5
  | .startWorker i => n - i + 4
  | .lock => 3
  | .predicate => 2
  | .leave => 1
  | _ => 0

/-- How many steps a thread causes from here: `notify_one` costs the constructor three more. -/
def effort : Thread n → ThreadCtl → Nat
  | _, .unborn => 8
  | _, .lock => 8
  | _, .read => 7
  | _, .write _ => 6
  | .worker _, .unlock => 5
  | .worker _, .notify => 4
  | .timer, .notify => 5
  | .timer, .unlock => 1
  | _, .loop => 0

def rank (s : Startup n) : Nat := mainEffort n s.main + ∑ t, effort t (s.threads t)

/-- One thread goes on, and the others stay. -/
theorem sum_effort (f : Thread n → ThreadCtl) (t : Thread n) (x : ThreadCtl) :
    ∑ t', effort t' (update f t x t') + effort t (f t) = ∑ t', effort t' (f t') + effort t x := by
  simp only [apply_update effort]
  exact sum_update (Finset.mem_univ t) id (fun t' => effort t' (f t')) (effort t x)

/-- What is left after a thread moved. -/
theorem rank_setThread (s : Startup n) (t : Thread n) (x : ThreadCtl) :
    (s.setThread t x).rank + effort t (s.threads t) = s.rank + effort t x := by
  have hsum := sum_effort s.threads t x
  show mainEffort n s.main + ∑ t', effort t' (update s.threads t x t') + _ = mainEffort n s.main + _ + _
  omega

theorem Inv.rank_starts {t : Thread n} (ht : s.threads t = .unborn) :
    ∑ t', effort t' (update s.threads t .lock t') = ∑ t', effort t' (s.threads t') := by
  have hsum := sum_effort s.threads t .lock
  rw [ht] at hsum
  exact Nat.add_right_cancel hsum

/-- To wake the constructor costs three steps. -/
theorem rank_notifyOne (s : Startup n) : s.notifyOne.rank ≤ s.rank + 3 := by
  unfold notifyOne
  split
  · rename_i hm
    simp only [rank, hm, mainEffort]
    omega
  · exact Nat.le_add_right _ 3

theorem threads_notifyOne (s : Startup n) : s.notifyOne.threads = s.threads := by
  unfold notifyOne
  split <;> rfl

/-- Every step but a wake-up makes it less. -/
theorem Inv.rank_lt (hi : s.Inv) {e : StartupEvent n} (h : Moves s e s') (he : e ≠ .wake) : s'.rank < s.rank := by
  -- a thread that does not notify only comes nearer to its loop
  have hthread : ∀ (s₁ : Startup n) (t : Thread n) (x : ThreadCtl), s₁.rank = s.rank → s₁.threads = s.threads →
      effort t x < effort t (s.threads t) → (s₁.setThread t x).rank < s.rank := by
    intro s₁ t x hrank hthreads hlt
    have hset := s₁.rank_setThread t x
    rw [hrank, hthreads] at hset
    omega
  cases h with
  | startTimer hm =>
    have hborn := (hi.born .timer).2 (by rw [hm]; trivial)
    simp only [rank, hm, mainEffort, rank_starts hborn]
    omega
  | @startWorker i hm hlt =>
    have hborn := (hi.born (.worker ⟨i, hlt⟩)).2 (by rw [hm]; exact Nat.le_refl i)
    simp only [rank, hm, mainEffort, rank_starts hborn]
    omega
  | wake hm => exact absurd rfl he
  | @threadLock t ht hfree =>
    refine hthread _ t .read rfl rfl ?_
    rw [ht]
    cases t <;> simp [effort]
  | @read t ht =>
    refine hthread _ t _ rfl rfl ?_
    rw [ht]
    cases t <;> simp [effort]
  | @write t count ht =>
    refine hthread _ t _ rfl rfl ?_
    rw [ht]
    cases t <;> simp [effort, Thread.written]
  | @unlock t ht =>
    refine hthread _ t _ rfl rfl ?_
    rw [ht]
    cases t <;> simp [effort, Thread.unlocked]
  | @notify t ht =>
    have hset := s.notifyOne.rank_setThread t t.notified
    have hnotify := s.rank_notifyOne
    rw [threads_notifyOne, ht] at hset
    have heffort : effort t t.notified + 4 ≤ effort t .notify := by
      cases t <;> simp [effort, Thread.notified]
    omega
  | started hm => simp only [rank, hm, mainEffort]; omega
  | lock hm => simp only [rank, hm, mainEffort]; omega
  | complete hm => simp only [rank, hm, mainEffort]; omega
  | wait hm => simp only [rank, hm, mainEffort]; omega
  | leave hm => simp only [rank, hm, mainEffort]; omega

/-- A wake-up makes it three more. -/
theorem rank_wake (h : Moves s .wake s') : s'.rank = s.rank + 3 := by
  cases h with
  | wake hm =>
    simp only [rank, hm, mainEffort]
    omega

/-- How much there is at the start. -/
theorem rank_init (n : Nat) : (Startup.init n).rank = 9 * n + 13 := by
  have hsum : ∑ t : Thread n, effort t .unborn = (n + 1) * 8 := by
    rw [← Thread.card_univ]
    refine Finset.sum_const_nat ?_
    intro t _
    cases t <;> rfl
  show n + 5 + ∑ t : Thread n, effort t .unborn = _
  omega

/-- A run has at most so many steps for each time that `wait` wakes up of itself. -/
theorem Inv.rank_runAll (hi : s.Inv) {es : List (StartupEvent n)} (h : s.runAll es = some s') :
    es.countP (· ≠ .wake) + s'.rank ≤ s.rank + 3 * es.count .wake := by
  induction es generalizing s with
  | nil =>
    cases h
    simp
  | cons e rest ih =>
    obtain ⟨s₁, he, hrest⟩ := Option.bind_eq_some_iff.1 h
    have hm := step_moves he
    have hrank := ih (hi.step hm) hrest
    by_cases hw : e = .wake
    · subst hw
      have hwake := rank_wake hm
      rw [List.countP_cons_of_neg (by simp), List.count_cons_self]
      omega
    · have hlt := hi.rank_lt hm hw
      rw [List.countP_cons_of_pos (by simpa using hw), List.count_cons_of_ne hw]
      omega

/-! ## Threads that are late -/

/-- Runs one after another. -/
theorem runAll_append (s : Startup n) (es es' : List (StartupEvent n)) :
    s.runAll (es ++ es') = (s.runAll es).bind (fun s => s.runAll es') := by
  induction es generalizing s with
  | nil => rfl
  | cons e rest ih =>
    show (s.step e).bind _ = ((s.step e).bind _).bind _
    cases s.step e with
    | none => rfl
    | some s₁ => exact ih s₁

/-- The state can be reached from the other one. -/
def Reaches (s s' : Startup n) : Prop := ∃ es, s.runAll es = some s'

theorem Reaches.trans {s₁ s₂ s₃ : Startup n} (h : s₁.Reaches s₂) (h' : s₂.Reaches s₃) : s₁.Reaches s₃ := by
  obtain ⟨es, hes⟩ := h
  obtain ⟨es', hes'⟩ := h'
  refine ⟨es ++ es', ?_⟩
  rw [runAll_append, hes]
  exact hes'

theorem Reaches.step {e : StartupEvent n} (h : s.step e = some s') : s.Reaches s' := by
  refine ⟨[e], ?_⟩
  show (s.step e).bind _ = _
  rw [h]
  rfl

/-- The constructor starts all workers before a thread takes a step. -/
theorem exists_started {i : Nat} (hm : s.main = .startWorker i) (ht : ∀ t, ¬s.main.starts t → s.threads t = .lock) :
    ∃ s', s.Reaches s' ∧ s'.main = .lock ∧ (∀ t, s'.threads t = .lock) ∧ s'.initMut = s.initMut ∧
    s'.finished = s.finished ∧ s'.late = s.late := by
  -- on the number of workers that are left
  induction hk : n - i generalizing s i with
  | zero =>
    have hle : ¬i < n := by omega
    refine ⟨{ s with main := .lock }, .step (e := .main) ?_, rfl, ?_, rfl, rfl, rfl⟩
    · simp only [step, construct, hm, hle, dite_false]
    · intro t
      refine ht t ?_
      rw [hm]
      cases t with
      | timer => exact id
      | worker w => exact fun h => hle (Nat.lt_of_le_of_lt h w.isLt)
  | succ k ih =>
    have hlt : i < n := by omega
    let s₁ : Startup n := { s with threads := update s.threads (.worker ⟨i, hlt⟩) .lock, main := .startWorker (i + 1) }
    have hstep : s.step .main = some s₁ := by
      simp only [step, construct, hm, hlt, dite_true, s₁]
    have hthreads : ∀ t, ¬s₁.main.starts t → s₁.threads t = .lock := by
      intro t hnot
      by_cases heq : t = .worker ⟨i, hlt⟩
      · subst heq
        exact update_self ..
      · show update s.threads (.worker ⟨i, hlt⟩) .lock t = .lock
        rw [update_of_ne heq]
        refine ht t ?_
        rw [hm]
        cases t with
        | timer => exact id
        | worker w =>
          intro hle
          refine hnot (Nat.lt_of_le_of_ne hle ?_)
          rintro rfl
          exact heq rfl
    obtain ⟨s', hreaches, hrest⟩ := ih (s := s₁) rfl hthreads (by omega)
    exact ⟨s', (Reaches.step hstep).trans hreaches, hrest⟩

/-- Where a thread is when it has counted itself and given the mutex back. -/
def arrived : Thread n → ThreadCtl
  | .timer => .loop
  | .worker _ => .notify

/-- A thread counts itself while the others do nothing. -/
theorem reaches_arrived {t : Thread n} (hm : s.main = .lock) (hfree : s.initMut = none) (ht : s.threads t = .lock) :
    s.Reaches { s with threads := update s.threads t (arrived t), finished := s.finished + 1 } := by
  cases t with
  | timer =>
    refine ⟨List.replicate 5 (.thread .timer), ?_⟩
    simp [List.replicate, runAll, step, thread, setThread, notifyOne, ht, hfree, hm, Thread.written, Thread.notified,
      Thread.unlocked, arrived]
  | worker w =>
    refine ⟨List.replicate 4 (.thread (.worker w)), ?_⟩
    simp [List.replicate, runAll, step, thread, setThread, ht, hfree, hm, Thread.written, Thread.unlocked, arrived]

/-- Threads arrive one after another. -/
theorem exists_arrived {ts : List (Thread n)} (hts : ts.Nodup) (hm : s.main = .lock) (hfree : s.initMut = none)
    (ht : ∀ t ∈ ts, s.threads t = .lock) :
    ∃ s', s.Reaches s' ∧ s'.main = .lock ∧ s'.initMut = none ∧ s'.finished = s.finished + ts.length ∧ s'.late = s.late ∧
      (∀ t ∈ ts, s'.threads t = arrived t) ∧ ∀ t, t ∉ ts → s'.threads t = s.threads t := by
  induction ts generalizing s with
  | nil => exact ⟨s, ⟨[], rfl⟩, hm, hfree, rfl, rfl, by simp, by simp⟩
  | cons t rest ih =>
    obtain ⟨hnot, hrest⟩ := List.nodup_cons.1 hts
    let s₁ : Startup n := { s with threads := update s.threads t (arrived t), finished := s.finished + 1 }
    have hother : ∀ t', t' ≠ t → s₁.threads t' = s.threads t' := by
      intro t' hne
      exact update_of_ne hne ..
    have hlock : ∀ t' ∈ rest, s₁.threads t' = .lock := by
      intro t' hmem
      have hne : t' ≠ t := by
        rintro rfl
        exact hnot hmem
      rw [hother t' hne]
      exact ht t' (List.mem_cons_of_mem _ hmem)
    obtain ⟨s', hreaches, hm', hfree', hfinished, hlate, harrived, hsame⟩ := ih hrest (s := s₁) hm hfree hlock
    refine ⟨s', (reaches_arrived hm hfree (ht t List.mem_cons_self)).trans hreaches, hm', hfree', ?_, hlate, ?_, ?_⟩
    · rw [hfinished, List.length_cons]
      show s.finished + 1 + rest.length = _
      omega
    · intro t' hmem
      rcases List.mem_cons.1 hmem with rfl | hmem
      · rw [hsame t' hnot]
        exact update_self ..
      · exact harrived t' hmem
    · intro t' hmem
      rw [List.mem_cons, not_or] at hmem
      rw [hsame t' hmem.2, hother t' hmem.1]

/-- Threads notify a constructor that has returned. -/
theorem exists_late {l : List (Thread n)} (hl : l.Nodup) (hm : s.main = .returned)
    (ht : ∀ t ∈ l, s.threads t = .notify) :
    ∃ s', s.Reaches s' ∧ s'.late = s.late ++ l := by
  induction l generalizing s with
  | nil => exact ⟨s, ⟨[], rfl⟩, (List.append_nil _).symm⟩
  | cons t rest ih =>
    obtain ⟨hnot, hrest⟩ := List.nodup_cons.1 hl
    have hwait : s.notifyOne = s := by
      rw [notifyOne, if_neg]
      rw [hm]
      rintro ⟨⟩
    have hstep : s.step (.thread t) = some (s.setThread t t.notified) := by
      simp only [step, thread, ht t List.mem_cons_self, hwait]
    have hnotify : ∀ t' ∈ rest, (s.setThread t t.notified).threads t' = .notify := by
      intro t' hmem
      have hne : t' ≠ t := by
        rintro rfl
        exact hnot hmem
      show update s.threads t t.notified t' = .notify
      rw [update_of_ne hne]
      exact ht t' (List.mem_cons_of_mem _ hmem)
    have hlate : (s.setThread t t.notified).late = s.late ++ [t] := if_pos hm
    obtain ⟨s', hreaches, hs'⟩ := ih hrest (s := s.setThread t t.notified) hm hnotify
    refine ⟨s', (Reaches.step hstep).trans hreaches, ?_⟩
    rw [hs', hlate, List.append_assoc]
    rfl

/-- All threads can have given the mutex back, with no worker having notified, when the constructor returns. -/
theorem exists_returned (n : Nat) : ∃ s, (Startup.init n).Reaches s ∧ s.main = .returned ∧ s.late = [] ∧
    ∀ w, s.threads (.worker w) = .notify := by
  let s₀ :
    Startup n := { Startup.init n with threads := update (Startup.init n).threads .timer .lock, main := .startWorker 0 }
  have hstart : (Startup.init n).Reaches s₀ := .step (e := .main) rfl
  have hborn : ∀ t, ¬s₀.main.starts t → s₀.threads t = .lock := by
    intro t hnot
    cases t with
    | timer =>
      show update (Startup.init n).threads .timer ThreadCtl.lock .timer = .lock
      rw [update_self]
    | worker w => exact absurd (Nat.zero_le w.val) hnot
  obtain ⟨s₁, hreaches₁, hm₁, hthreads₁, hfree₁, hfinished₁, hlate₁⟩ := exists_started (s := s₀) rfl hborn
  obtain ⟨s₂, hreaches₂, hm₂, hfree₂, hfinished₂, hlate₂, harrived, -⟩ :=
    exists_arrived (Finset.nodup_toList Finset.univ) hm₁ hfree₁ (fun t _ => hthreads₁ t)
  have hcount : s₂.finished = n + 1 := by
    rw [hfinished₂, hfinished₁, Finset.length_toList, Thread.card_univ]
    exact Nat.zero_add _
  have hreturns : s₂.Reaches { s₂ with initMut := none, main := .returned } := by
    refine ⟨List.replicate 3 .main, ?_⟩
    simp [List.replicate, runAll, step, construct, hm₂, hfree₂, hcount]
  refine ⟨_, hstart.trans (hreaches₁.trans (hreaches₂.trans hreturns)), rfl, hlate₂.trans hlate₁, ?_⟩
  intro w
  exact harrived (.worker w) (Finset.mem_toList.2 (Finset.mem_univ _))

end Startup

/-- After any steps of the constructor and the threads:
- `finished` is the number of threads that have counted themselves, and no addition to it is lost;
- if the constructor has returned, all of them have, and none will acquire the mutex again: the thread of the timers is
  in its loop, and a worker is so too or is about to notify;
- if nobody can go on, the constructor has returned and all threads are in their loops;
- and there were at most so many steps, and three more for each time that `wait` woke up of itself. -/
theorem constructor_returns {es : List (StartupEvent n)} {s : Startup n} (h : (Startup.init n).runAll es = some s) :
    s.finished = (Finset.univ.filter (fun t => (s.threads t).counted = true)).card ∧
    (s.main = .returned → s.finished = n + 1 ∧ s.threads .timer = .loop ∧ ∀ w, s.threads (.worker w) = .notify ∨
      s.threads (.worker w) = .loop) ∧
    (s.Standstill → s.main = .returned ∧ ∀ t, s.threads t = .loop) ∧
    es.countP (· ≠ .wake) ≤ 9 * n + 13 + 3 * es.count .wake := by
  have hi := (Startup.Inv.init n).runAll h
  refine ⟨hi.count, ?_, ?_, ?_⟩
  · intro hm
    have hleft := hi.left (.inr hm)
    refine ⟨?_, ?_, ?_⟩
    · rw [hi.count, countIn, Finset.filter_true_of_mem (fun t _ => (hleft t).1), Thread.card_univ]
    · rcases Thread.worker_of_counted (hleft .timer).1 (hleft .timer).2 with hloop | ⟨-, w, hw⟩
      · exact hloop
      · cases hw
    · intro w
      rcases Thread.worker_of_counted (hleft (.worker w)).1 (hleft (.worker w)).2 with hloop | ⟨hnotify, -⟩
      · exact .inr hloop
      · exact .inl hnotify
  · intro hstand
    exact ⟨hstand.returned hi, hstand.threads hi⟩
  · have hrank := (Startup.Inv.init n).rank_runAll h
    rw [Startup.rank_init] at hrank
    omega

/-- One worker. The constructor sleeps twice, and both threads wake it up. -/
def sleepsTwice : List (StartupEvent 1) :=
  List.flatten
    [List.replicate 5 .main, List.replicate 5 (.thread .timer), List.replicate 2 .main,
      List.replicate 5 (.thread (.worker (.last 0))), List.replicate 3 .main]

/-- The constructor wakes twice. -/
theorem constructor_returns_sleepsTwice :
    ∃ s, (Startup.init 1).runAll sleepsTwice = some s ∧ s.main = .returned ∧ s.finished = 2 := by
  have hrun : ((Startup.init 1).runAll sleepsTwice).map Startup.main = some .returned := by decide +kernel
  obtain ⟨s, hs, hm⟩ := Option.map_eq_some_iff.1 hrun
  exact ⟨s, hs, hm, ((constructor_returns hs).2.1 hm).1⟩

/-- The threads that touch a variable of the constructor after it has returned can be any workers, each of them once and
in any order. The thread of the timers never does, as it notifies before it gives the mutex back. -/
theorem late_iff (l : List (Thread n)) :
    (∃ es s, (Startup.init n).runAll es = some s ∧ s.late = l) ↔ l.Nodup ∧ ∀ t ∈ l, ∃ w, t = .worker w := by
  constructor
  · rintro ⟨es, s, h, rfl⟩
    have hi := (Startup.Inv.init n).runAll h
    exact ⟨hi.once, fun t ht => (hi.late t ht).2.2⟩
  · rintro ⟨hnodup, hworkers⟩
    obtain ⟨s, hreaches, hm, hlate, hnotify⟩ := Startup.exists_returned n
    have ht : ∀ t ∈ l, s.threads t = .notify := by
      intro t hmem
      obtain ⟨w, rfl⟩ := hworkers t hmem
      exact hnotify w
    obtain ⟨s', hreaches', hs'⟩ := Startup.exists_late hnodup hm ht
    obtain ⟨es, hes⟩ := hreaches.trans hreaches'
    refine ⟨es, s', hes, ?_⟩
    rw [hs', hlate]
    rfl

end Executor

end Tunnel
